import JavaMend.Proofs.TempFiles.Calls
import JavaMend.Proofs.TempFiles.Scan
import JavaMend.Proofs.Tree.Places
import Mathlib.Algebra.Order.Group.Multiset
import Mathlib.Data.List.Flatten
import Mathlib.Data.Option.Basic

/-!
# The sequences that the scan finds

A hijackable directory is three statements of a block: one that binds a local to a new
temporary file, the first one after it that deletes the file, and the first one after that
which makes a directory of its name, where nothing in between sets the local
(`IsSequence`). The scan keeps one file a local. What it knows after some statements is what
is open there (`Underway`), so the sites it reports are the sequences, in the order in which
they end. A statement is read once, so it is part of one file or site at most (`held`).

The scan reads the top of each statement only. An assignment further inside, or a second
`delete()`, goes unnoticed and can leave the local without its directory. In a block where each
statement shows what it does to a local (`Shows`) nothing does: between the statements of a site
the local is not assigned and, but for the statement that deletes it, not deleted
(`sites_undisturbed`).
-/

namespace JavaMend

namespace TempDirectory

/-! ## Statements -/

/-- `File name = create;` or `name = create;` for a local of class `File`, where the call
creates a temporary file. -/
inductive Binds (name : String) (create : Expr) : Stmt → Prop where
  | declaration {id : NodeId} {modifiers : List Modifier} {typeName : String} {v : Variable}
      {init : Expr} (named : v.name = name) (isFile : v.ty.isFile = true)
      (initialised : v.init = some init) (call : init.unparen = create)
      (creates : CallMatcher.standard.acceptsAny create createTempFile = true) :
      Binds name create ⟨id, .declare ⟨modifiers, typeName, [v]⟩⟩
  | assignment {id id' : NodeId} {ty : Ty} {target value : Expr}
      (named : target.localName? = some name) (isFile : target.ty.isFile = true)
      (call : value.unparen = create)
      (creates : CallMatcher.standard.acceptsAny create createTempFile = true) :
      Binds name create ⟨id, .expr ⟨id', ty, .assign none target value⟩⟩

/-- `name = value;` or a compound assignment. -/
inductive Assigns (name : String) : Stmt → Prop where
  | intro {id id' : NodeId} {ty : Ty} {op : Option BinaryOp} {target value : Expr}
      (named : target.localName? = some name) :
      Assigns name ⟨id, .expr ⟨id', ty, .assign op target value⟩⟩

/-- The local holds another value after the statement. -/
def Sets (name : String) (stmt : Stmt) : Prop := (∃ create, Binds name create stmt) ∨ Assigns name stmt

/-- A call of a method of one of the shapes on the local. -/
structure CallsOn (shapes : List Signature) (name : String) (call : Expr) : Prop where
  accepted : CallMatcher.standard.acceptsAny call shapes = true
  receiver : ∃ receiver, call.receiver? = some receiver ∧ receiver.unparen.localName? = some name

/-- `call;`, or `if (!call)` without an `else`. -/
inductive Steps (shapes : List Signature) (name : String) : Stmt → Prop where
  | plain {id : NodeId} {e : Expr} (calls : CallsOn shapes name e.unparen) :
      Steps shapes name ⟨id, .expr e⟩
  | guarded {id : NodeId} {condition operand : Expr} {body : Stmt}
      (negated : condition.unparen.form = .unary .not operand)
      (calls : CallsOn shapes name operand.unparen) :
      Steps shapes name ⟨id, .ifElse condition body none⟩

/-- The statements of a site follow one another in the list. -/
inductive IsSequence (site : DirectorySite) : List Stmt → Prop where
  | intro {name : String} {before between waiting after : List Stmt}
      (binds : Binds name site.create site.createStmt)
      (deletes : Steps delete name site.deleteStmt)
      (makes : Steps mkdir name site.mkdirStmt)
      (first : ∀ s ∈ between, ¬ Steps delete name s)
      (next : ∀ s ∈ waiting, ¬ Steps mkdir name s)
      (unset : ∀ s ∈ between ++ site.deleteStmt :: waiting, ¬ Sets name s) :
      IsSequence site (before ++ site.createStmt :: (between ++ site.deleteStmt :: waiting) ++
        site.mkdirStmt :: after)

/-- The statements of a site. -/
def DirectorySite.stmts (site : DirectorySite) : List Stmt :=
  [site.createStmt, site.deleteStmt, site.mkdirStmt]

theorem delete_alone : delete.all (·.isAmong ["delete"]) = true := by
  decide +kernel

theorem mkdir_alone : mkdir.all (·.isAmong ["mkdir", "mkdirs"]) = true := by
  decide +kernel

section

variable {name other : String} {create : Expr} {s : Stmt} {shapes : List Signature}

theorem binding?_eq_some_iff : binding? .standard s = some (name, create) ↔ Binds name create s := by
  constructor
  · intro found
    obtain ⟨id, form⟩ := s
    unfold binding? at found
    dsimp only at found
    split at found
    next modifiers typeName v =>
      obtain ⟨init, initialised, found⟩ := Option.bind_eq_some_iff.mp found
      obtain ⟨_, accepted, found⟩ := Option.bind_eq_some_iff.mp found
      obtain ⟨creates, isFile⟩ := Bool.and_eq_true_iff.mp ((Option.guard_eq_some' _).mp accepted)
      cases found
      exact .declaration rfl isFile initialised rfl creates
    next id' ty target value =>
      obtain ⟨_, accepted, found⟩ := Option.bind_eq_some_iff.mp found
      obtain ⟨name', named, found⟩ := Option.bind_eq_some_iff.mp found
      obtain ⟨creates, isFile⟩ := Bool.and_eq_true_iff.mp ((Option.guard_eq_some' _).mp accepted)
      cases found
      exact .assignment named isFile rfl creates
    next => cases found
  · intro binds
    cases binds with
    | declaration named isFile initialised call creates =>
      simp [binding?, initialised, call, creates, isFile, named, guard]
    | assignment named isFile call creates =>
      simp [binding?, call, creates, isFile, named, guard]

theorem assigned?_eq_some_iff : assigned? s = some name ↔ Assigns name s := by
  constructor
  · intro found
    obtain ⟨id, form⟩ := s
    unfold assigned? at found
    dsimp only at found
    split at found
    · exact .intro found
    · cases found
  · rintro ⟨named⟩
    exact named

theorem step?_eq_some_iff : step? .standard shapes s = some name ↔ Steps shapes name s := by
  have calls {e : Expr} : (do
      guard (CallMatcher.standard.acceptsAny e shapes)
      (← e.receiver?).unparen.localName?) = some name ↔ CallsOn shapes name e := by
    constructor
    · intro found
      obtain ⟨_, accepted, found⟩ := Option.bind_eq_some_iff.mp found
      obtain ⟨receiver, found, named⟩ := Option.bind_eq_some_iff.mp found
      exact ⟨(Option.guard_eq_some' _).mp accepted, receiver, found, named⟩
    · rintro ⟨accepted, receiver, found, named⟩
      simp [accepted, found, named, guard]
  constructor
  · intro found
    obtain ⟨call, isCall, found⟩ := Option.bind_eq_some_iff.mp found
    have on := calls.mp found
    obtain ⟨id, form⟩ := s
    unfold stepCall? at isCall
    dsimp only at isCall
    split at isCall
    · cases isCall
      exact .plain on
    · split at isCall
      next negated =>
        cases isCall
        exact .guarded negated on
      next => cases isCall
    · cases isCall
  · intro steps
    cases steps with
    | plain on => exact calls.mpr on
    | guarded negated on =>
      unfold step? stepCall?
      dsimp only
      rw [negated]
      exact calls.mpr on

theorem Binds.name_of_assigns (binds : Binds name create s) (assigns : Assigns other s) :
    other = name := by
  cases assigns with
  | intro named =>
    cases binds with
    | assignment named' => exact Option.some.inj (named.symm.trans named')

/-- A step is no assignment: an assignment has no method. -/
theorem Steps.not_sets (steps : Steps shapes name s) : ¬ Sets other s := by
  have calls {id : NodeId} {ty : Ty} {op : Option BinaryOp} {target value : Expr} :
      ¬ CallsOn shapes name (Expr.unparen ⟨id, ty, .assign op target value⟩) := by
    rintro ⟨-, receiver, found, -⟩
    cases found
  cases steps with
  | plain on =>
    rintro (⟨create, binds⟩ | assigns)
    · cases binds
      exact calls on
    · cases assigns
      exact calls on
  | guarded negated on =>
    rintro (⟨create, binds⟩ | assigns)
    · cases binds
    · cases assigns

/-- A statement is a step of one local only, and of one sort. -/
theorem Steps.apart (deletes : Steps delete name s) : ¬ Steps mkdir other s := by
  have calls {call : Expr} (deletes : CallsOn delete name call) (makes : CallsOn mkdir other call) :
      False := by
    obtain ⟨m, found, named⟩ := CallMatcher.name_of_acceptsAny delete_alone deletes.accepted
    obtain ⟨m', found', named'⟩ := CallMatcher.name_of_acceptsAny mkdir_alone makes.accepted
    cases found.symm.trans found'
    rw [List.mem_singleton.mp named] at named'
    revert named'
    decide
  intro makes
  cases deletes with
  | plain on =>
    cases makes with
    | plain on' => exact calls on on'
  | guarded negated on =>
    cases makes with
    | guarded negated' on' =>
      cases negated.symm.trans negated'
      exact calls on on'

/-! ## Events of statements -/

theorem binds_iff : Binds name create s ↔ event .standard s = .binds name create := by
  rw [← binding?_eq_some_iff]
  refine ⟨fun found => ?_, binding?_of_event⟩
  unfold event
  rw [found]

theorem sets_iff : Sets name s ↔
    (∃ create, event .standard s = .binds name create) ∨ event .standard s = .sets name := by
  simp only [Sets, binds_iff, ← assigned?_eq_some_iff]
  refine or_congr_right' fun unbound => ?_
  unfold event
  cases bound : binding? .standard s with
  | none => cases assigned? s <;> cases step? .standard delete s <;> cases step? .standard mkdir s <;> simp
  | some found =>
    obtain ⟨other, create⟩ := found
    have binds := binding?_eq_some_iff.mp bound
    simp only [reduceCtorEq, iff_false]
    intro assigns
    cases binds.name_of_assigns (assigned?_eq_some_iff.mp assigns)
    exact unbound ⟨create, binds_iff.mp binds⟩

/-- What a step is not read as. -/
theorem Steps.event_eq (steps : Steps shapes name s) :
    binding? .standard s = none ∧ assigned? s = none := by
  constructor
  · refine Option.eq_none_iff_forall_not_mem.mpr fun found bound => ?_
    exact steps.not_sets (.inl ⟨found.2, binding?_eq_some_iff.mp bound⟩)
  · refine Option.eq_none_iff_forall_not_mem.mpr fun other assigns => ?_
    exact steps.not_sets (.inr (assigned?_eq_some_iff.mp assigns))

theorem deletes_iff : Steps delete name s ↔ event .standard s = .deletes name := by
  constructor
  · intro steps
    obtain ⟨unbound, unassigned⟩ := steps.event_eq
    unfold event
    rw [unbound, unassigned, step?_eq_some_iff.mpr steps]
  · intro deletes
    unfold event at deletes
    split at deletes <;> cases deletes
    exact step?_eq_some_iff.mp ‹_›

theorem makes_iff : Steps mkdir name s ↔ event .standard s = .makes name := by
  constructor
  · intro steps
    obtain ⟨unbound, unassigned⟩ := steps.event_eq
    have undeleted : step? .standard delete s = none :=
      Option.eq_none_iff_forall_not_mem.mpr fun other deletes =>
        (step?_eq_some_iff.mp deletes).apart steps
    unfold event
    rw [unbound, unassigned, undeleted, step?_eq_some_iff.mpr steps]
  · intro makes
    unfold event at makes
    split at makes <;> cases makes
    exact step?_eq_some_iff.mp ‹_›

end

/-! ## What is open after some statements -/

/-- What has become of a file since the statement that created it. -/
def Since (name : String) : Option Stmt → List Stmt → Prop
  | none, rest => ∀ s ∈ rest, ¬ Steps delete name s
  | some d, rest => ∃ between waiting, rest = between ++ d :: waiting ∧
      (∀ s ∈ between, ¬ Steps delete name s) ∧ Steps delete name d ∧
      ∀ s ∈ waiting, ¬ Steps mkdir name s

/-- The file is that of the local after the statements. -/
inductive Underway (name : String) (c : Candidate) : List Stmt → Prop where
  | intro {before rest : List Stmt} (binds : Binds name c.create c.createStmt)
      (unset : ∀ s ∈ rest, ¬ Sets name s) (since : Since name c.deleteStmt rest) :
      Underway name c (before ++ c.createStmt :: rest)

section

variable {name : String} {c : Candidate} {done rest : List Stmt} {s d : Stmt} {site : DirectorySite}

theorem since_none_concat :
    Since name none (rest ++ [s]) ↔ Since name none rest ∧ ¬ Steps delete name s := by
  simp only [Since, List.forall_mem_append, List.forall_mem_singleton]

/-- A file is deleted by the last statement or was before it. -/
theorem since_some_concat : Since name (some d) (rest ++ [s]) ↔
    d = s ∧ Steps delete name s ∧ Since name none rest ∨
      Since name (some d) rest ∧ ¬ Steps mkdir name s := by
  constructor
  · rintro ⟨between, waiting, split_, first, deletes, next⟩
    rcases List.eq_nil_or_concat' waiting with rfl | ⟨waiting, last, rfl⟩
    · obtain ⟨rfl, same⟩ := List.append_inj' split_ rfl
      cases same
      exact .inl ⟨rfl, deletes, first⟩
    · rw [← List.cons_append, ← List.append_assoc] at split_
      obtain ⟨rfl, same⟩ := List.append_inj' split_ rfl
      cases same
      obtain ⟨next, last⟩ := List.forall_mem_append.mp next
      exact .inr ⟨⟨between, waiting, rfl, first, deletes, next⟩, last s List.mem_cons_self⟩
  · rintro (⟨rfl, deletes, first⟩ | ⟨⟨between, waiting, rfl, first, deletes, next⟩, last⟩)
    · exact ⟨rest, [], rfl, first, deletes, by simp⟩
    · refine ⟨between, waiting ++ [s], by simp, first, deletes, ?_⟩
      exact List.forall_mem_append.mpr ⟨next, by simpa using last⟩

/-- What is open after one more statement. -/
theorem underway_concat : Underway name c (done ++ [s]) ↔
    (Binds name c.create s ∧ c = ⟨c.create, s, none⟩) ∨ ¬ Sets name s ∧
      (c.deleteStmt = none ∧ Underway name c done ∧ ¬ Steps delete name s ∨
        c.deleteStmt = some s ∧ Underway name { c with deleteStmt := none } done ∧ Steps delete name s ∨
        (∃ d, c.deleteStmt = some d) ∧ Underway name c done ∧ ¬ Steps mkdir name s) := by
  obtain ⟨create, createStmt, deleteStmt⟩ := c
  dsimp only
  constructor
  · generalize whole : done ++ [s] = stmts
    rintro ⟨binds, unset, since⟩
    next before rest =>
    rcases List.eq_nil_or_concat' rest with rfl | ⟨rest, last, rfl⟩
    · obtain ⟨-, same⟩ := List.append_inj' whole rfl
      cases same
      cases deleteStmt with
      | none => exact .inl ⟨binds, rfl⟩
      | some d =>
        obtain ⟨between, waiting, split_, -⟩ := since
        simp at split_
    · rw [← List.cons_append, ← List.append_assoc] at whole
      obtain ⟨rfl, same⟩ := List.append_inj' whole rfl
      cases same
      obtain ⟨kept, last⟩ := List.forall_mem_append.mp unset
      refine .inr ⟨last s List.mem_cons_self, ?_⟩
      cases deleteStmt with
      | none =>
        obtain ⟨since, last⟩ := since_none_concat.mp since
        exact .inl ⟨rfl, ⟨binds, kept, since⟩, last⟩
      | some d =>
        rcases since_some_concat.mp since with ⟨rfl, deletes, since⟩ | ⟨since, last⟩
        · exact .inr (.inl ⟨rfl, .intro (c := ⟨create, createStmt, none⟩) binds kept since, deletes⟩)
        · exact .inr (.inr ⟨⟨d, rfl⟩, .intro (c := ⟨create, createStmt, some d⟩) binds kept since, last⟩)
  · rintro (⟨binds, same⟩ | ⟨unset_, open_⟩)
    · cases same
      exact ⟨binds, by simp, by simp [Since]⟩
    · have more {rest : List Stmt} (unset : ∀ t ∈ rest, ¬ Sets name t) :
          ∀ t ∈ rest ++ [s], ¬ Sets name t :=
        List.forall_mem_append.mpr ⟨unset, by simpa using unset_⟩
      have grow {before rest : List Stmt} : before ++ createStmt :: rest ++ [s] =
          before ++ createStmt :: (rest ++ [s]) := by simp
      rcases open_ with ⟨rfl, ⟨binds, unset, since⟩, last⟩ | ⟨rfl, ⟨binds, unset, since⟩, deletes⟩ |
        ⟨⟨d, rfl⟩, ⟨binds, unset, since⟩, last⟩
      · exact grow ▸ ⟨binds, more unset, since_none_concat.mpr ⟨since, last⟩⟩
      · exact grow ▸ ⟨binds, more unset, since_some_concat.mpr (.inl ⟨rfl, deletes, since⟩)⟩
      · exact grow ▸ ⟨binds, more unset, since_some_concat.mpr (.inr ⟨since, last⟩)⟩

/-- The scan knows what is open. -/
theorem lookup_scan (stmts : List Stmt) (name : String) (c : Candidate) :
    (scan .standard stmts).candidates.lookup name = some c ↔ Underway name c stmts := by
  induction stmts using List.reverseRecOn generalizing name c with
  | nil =>
    refine ⟨fun found => (nomatch found), fun underway => ?_⟩
    generalize whole : ([] : List Stmt) = stmts at underway
    cases underway
    simp at whole
  | append_singleton stmts s ih =>
    rw [scan_append, underway_concat, ← ih, ← ih, sets_iff, binds_iff, deletes_iff, makes_iff]
    generalize scan .standard stmts = p
    obtain ⟨create, createStmt, deleteStmt⟩ := c
    dsimp only
    cases event .standard s with
    | binds other create' =>
      rw [Progress.after, Progress.lookup_remember]
      by_cases same : name = other
      · subst same
        simp [eq_comm]
      · cases deleteStmt <;> simp [same, Ne.symm same]
    | sets other =>
      rw [Progress.after, Progress.lookup_forget]
      by_cases same : name = other
      · simp [same]
      · cases deleteStmt <;> simp [same, Ne.symm same]
    | deletes other =>
      by_cases same : name = other
      · subst same
        unfold Progress.after
        dsimp only
        split
        next create' createStmt' found =>
          rw [Progress.lookup_remember, if_pos rfl, found]
          cases deleteStmt with
          | none => simp
          | some d => grind
        next other =>
          have unknown := other create createStmt
          cases deleteStmt with
          | none => simpa using unknown
          | some d => simpa using fun _ found => (unknown found).elim
      · have kept : (p.after s (.deletes other)).candidates.lookup name = p.candidates.lookup name := by
          unfold Progress.after
          dsimp only
          split
          · rw [Progress.lookup_remember, if_neg same]
          · rfl
        rw [kept]
        cases deleteStmt <;> simp [Ne.symm same]
    | makes other =>
      by_cases same : name = other
      · subst same
        unfold Progress.after
        dsimp only
        split
        next create' createStmt' d found =>
          show (p.forget name).candidates.lookup name = _ ↔ _
          rw [Progress.lookup_forget, if_pos rfl, found]
          cases deleteStmt <;> simp
        next other =>
          cases deleteStmt with
          | none => simp
          | some d => simpa using other create createStmt d
      · have kept : (p.after s (.makes other)).candidates.lookup name = p.candidates.lookup name := by
          unfold Progress.after
          dsimp only
          split
          · show (p.forget other).candidates.lookup name = _
            rw [Progress.lookup_forget, if_neg same]
          · rfl
        rw [kept]
        cases deleteStmt <;> simp [Ne.symm same]
    | idle => cases deleteStmt <;> simp [Progress.after]

/-! ## Sites -/

/-- A sequence ends at the last statement or before it. -/
theorem isSequence_concat : IsSequence site (done ++ [s]) ↔ IsSequence site done ∨
    site.mkdirStmt = s ∧ ∃ name, Steps mkdir name s ∧
      Underway name ⟨site.create, site.createStmt, some site.deleteStmt⟩ done := by
  constructor
  · generalize whole : done ++ [s] = stmts
    rintro ⟨binds, deletes, makes, first, next, unset⟩
    next name before between waiting after =>
    rcases List.eq_nil_or_concat' after with rfl | ⟨after, last, rfl⟩
    · obtain ⟨rfl, same⟩ := List.append_inj' whole rfl
      cases same
      exact .inr ⟨rfl, name, makes, binds, unset, between, waiting, rfl, first, deletes, next⟩
    · rw [← List.cons_append (a := site.mkdirStmt), ← List.append_assoc] at whole
      obtain ⟨rfl, -⟩ := List.append_inj' whole rfl
      exact .inl ⟨binds, deletes, makes, first, next, unset⟩
  · rintro (sequence | ⟨rfl, name, makes, underway⟩)
    · cases sequence with
      | intro binds deletes makes first next unset =>
        rw [List.append_assoc, List.cons_append]
        exact ⟨binds, deletes, makes, first, next, unset⟩
    · cases underway with
      | intro binds unset since =>
        obtain ⟨between, waiting, rfl, first, deletes, next⟩ := since
        exact ⟨binds, deletes, makes, first, next, unset⟩

theorem mem_sites_after {p : Progress} {e : Event} : site ∈ (p.after s e).sites ↔
    site ∈ p.sites ∨ site.mkdirStmt = s ∧ ∃ name, e = .makes name ∧
      p.candidates.lookup name = some ⟨site.create, site.createStmt, some site.deleteStmt⟩ := by
  cases e with
  | makes name =>
    unfold Progress.after
    dsimp only
    split
    next create createStmt deleteStmt found =>
      obtain ⟨create', createStmt', deleteStmt', mkdirStmt'⟩ := site
      rw [List.mem_append, List.mem_singleton]
      grind
    next other =>
      simp only [Event.makes.injEq, exists_eq_left', iff_self_or]
      exact fun ⟨_, found⟩ => (other _ _ _ found).elim
  | deletes name =>
    unfold Progress.after
    dsimp only
    split <;> simp [Progress.remember, Progress.forget]
  | _ => simp [Progress.after, Progress.remember, Progress.forget]

/-- The scan reports the sequences. -/
theorem mem_sites_scan (stmts : List Stmt) :
    site ∈ (scan .standard stmts).sites ↔ IsSequence site stmts := by
  induction stmts using List.reverseRecOn with
  | nil =>
    refine ⟨fun none => (List.not_mem_nil none).elim, fun sequence => ?_⟩
    generalize whole : ([] : List Stmt) = stmts at sequence
    cases sequence
    simp at whole
  | append_singleton stmts s ih =>
    rw [scan_append, mem_sites_after, isSequence_concat, ih]
    simp only [makes_iff, lookup_scan]

/-- Sites are reported in the order in which they end. -/
theorem mkdirStmts_sublist (stmts : List Stmt) :
    ((scan .standard stmts).sites.map (·.mkdirStmt)).Sublist stmts := by
  induction stmts using List.reverseRecOn with
  | nil => exact .slnil
  | append_singleton stmts s ih =>
    rw [scan_append]
    have same {p : Progress} (kept : p.sites = (scan .standard stmts).sites) :
        (p.sites.map (·.mkdirStmt)).Sublist (stmts ++ [s]) :=
      kept ▸ ih.trans (List.sublist_append_left _ _)
    cases event .standard s with
    | makes name =>
      unfold Progress.after
      dsimp only
      split
      · rw [List.map_append]
        exact ih.append (List.Sublist.refl [s])
      · exact same rfl
    | deletes name =>
      unfold Progress.after
      dsimp only
      split <;> exact same rfl
    | _ => exact same rfl

end

/-! ## Statements are part of one site -/

/-- The statements of a file. -/
def Candidate.stmts (c : Candidate) : List Stmt := c.createStmt :: c.deleteStmt.toList

/-- The statements of the sites and of the files that are known. -/
def Progress.held (p : Progress) : Multiset Stmt :=
  (p.sites.flatMap DirectorySite.stmts : Multiset Stmt) +
    (p.candidates.flatMap (·.2.stmts) : Multiset Stmt)

section

variable {matcher : CallMatcher} {p : Progress} {name : String} {c : Candidate} {s : Stmt}

/-- Forgetting a local drops what was known of it. -/
theorem Progress.held_forget (found : p.candidates.lookup name = some c) :
    (p.forget name).held + (c.stmts : Multiset Stmt) ≤ p.held := by
  obtain ⟨candidates, sites⟩ := p
  simp only [held, forget, add_assoc] at found ⊢
  refine add_le_add_right ?_ _
  induction candidates with
  | nil => cases found
  | cons entry candidates ih =>
    obtain ⟨other, c'⟩ := entry
    by_cases same : name = other
    · subst same
      rw [List.lookup_cons_self] at found
      cases found
      rw [List.filter_cons_of_neg (by simp), List.flatMap_cons, ← Multiset.coe_add, add_comm]
      gcongr
      exact Multiset.coe_le.mpr (List.filter_sublist.flatMap _).subperm
    · rw [List.lookup_cons, beq_eq_false_iff_ne.mpr same] at found
      rw [List.filter_cons_of_pos (by simpa using Ne.symm same), List.flatMap_cons,
        List.flatMap_cons, ← Multiset.coe_add, ← Multiset.coe_add, add_assoc]
      gcongr
      exact ih found

theorem Progress.held_forget_le : (p.forget name).held ≤ p.held := by
  unfold held forget
  gcongr
  exact Multiset.coe_le.mpr (List.filter_sublist.flatMap _).subperm

theorem Progress.held_remember :
    (p.remember name c).held = (p.forget name).held + (c.stmts : Multiset Stmt) := by
  unfold held remember
  rw [List.flatMap_cons, ← Multiset.coe_add, add_comm (c.stmts : Multiset Stmt), ← add_assoc]

/-- A statement that is read adds itself at most. -/
theorem Progress.held_after (e : Event) : (p.after s e).held ≤ p.held + {s} := by
  cases e with
  | binds name create =>
    show (p.remember name ⟨create, s, none⟩).held ≤ _
    rw [held_remember]
    gcongr
    · exact held_forget_le
    · exact le_refl _
  | sets name => exact held_forget_le.trans (Multiset.le_add_right _ _)
  | deletes name =>
    unfold after
    dsimp only
    split
    next create createStmt found =>
      rw [held_remember]
      calc _ = (p.forget name).held + ([createStmt] : List Stmt) + {s} := by
            rw [add_assoc]
            rfl
        _ ≤ p.held + {s} := by
            gcongr
            exact held_forget found
    next => exact Multiset.le_add_right _ _
  | makes name =>
    unfold after
    dsimp only
    split
    next create createStmt deleteStmt found =>
      calc _ = (p.forget name).held + ([createStmt, deleteStmt] : List Stmt) + {s} := by
            have three : (([createStmt, deleteStmt, s] : List Stmt) : Multiset Stmt) =
                ([createStmt, deleteStmt] : List Stmt) + {s} := rfl
            unfold held forget
            rw [List.flatMap_append, List.flatMap_singleton, ← Multiset.coe_add,
              DirectorySite.stmts, three, add_right_comm, ← add_assoc]
        _ ≤ p.held + {s} := by
            gcongr
            exact held_forget found
    next => exact Multiset.le_add_right _ _
  | idle => exact Multiset.le_add_right _ _

theorem held_scan (stmts : List Stmt) : (scan matcher stmts).held ≤ (stmts : Multiset Stmt) := by
  induction stmts using List.reverseRecOn with
  | nil => exact le_refl _
  | append_singleton stmts s ih =>
    rw [scan_append]
    calc _ ≤ (scan matcher stmts).held + {s} := Progress.held_after _
      _ ≤ (stmts : Multiset Stmt) + {s} := by gcongr
      _ = ((stmts ++ [s] : List Stmt) : Multiset Stmt) := rfl

end

/-- The scan finds the sequences of the statements of a block, in the order in which they
end, and no statement is part of two of them. -/
theorem sites_are_sequences (block : Block) (distinct : block.stmts.Nodup) :
    (∀ site, site ∈ sites .standard block ↔ IsSequence site block.stmts) ∧
      ((sites .standard block).map (·.mkdirStmt)).Sublist block.stmts ∧
      ((sites .standard block).flatMap DirectorySite.stmts).Nodup := by
  refine ⟨fun site => mem_sites_scan block.stmts, mkdirStmts_sublist block.stmts, ?_⟩
  have held : (scan .standard block.stmts).held.Nodup :=
    Multiset.nodup_of_le (held_scan block.stmts) distinct
  exact Multiset.nodup_of_le (Multiset.le_add_right _ _) held

/-- Two directories that are made in turns:
`File f = File.createTempFile("a", "b"); g = File.createTempFile("a", "b"); f.mkdir(); f.delete();
if (!g.delete()) {} g.mkdir(); f.mkdir();` -/
theorem sites_are_sequences_interleaved :
    let text (id : NodeId) (value : String) : Expr := ⟨id, .string, .literal (.string value)⟩
    let temporary (id : NodeId) : Expr :=
      ⟨id, .file, .call (some ⟨id + 1, .file, .ident "File" none⟩) "createTempFile"
        [text (id + 2) "a", text (id + 3) "b"] (some Jdk.fileCreateTempFile)⟩
    let file (id : NodeId) (name : String) : Expr := ⟨id, .file, .ident name none⟩
    let call (id : NodeId) (name : String) (method : MethodRef) : Expr :=
      ⟨id, .boolean, .call (some (file (id + 1) name)) method.name [] (some method)⟩
    let stmts : List Stmt :=
      [⟨1, .declare ⟨[], "File", [⟨2, "f", .file, some (temporary 3)⟩]⟩⟩,
        ⟨7, .expr ⟨8, .file, .assign none (file 9 "g") (temporary 10)⟩⟩,
        ⟨14, .expr (call 15 "f" Jdk.fileMkdir)⟩,
        ⟨17, .expr (call 18 "f" Jdk.fileDelete)⟩,
        ⟨20, .ifElse ⟨21, .boolean, .unary .not (call 22 "g" Jdk.fileDelete)⟩
          ⟨24, .block ⟨25, false, []⟩⟩ none⟩,
        ⟨26, .expr (call 27 "g" Jdk.fileMkdir)⟩,
        ⟨29, .expr (call 30 "f" Jdk.fileMkdir)⟩]
    let block : Block := ⟨0, false, stmts⟩
    stmts.Nodup ∧
      (sites .standard block).map (fun site => site.stmts.map (·.id)) = [[7, 20, 26], [1, 17, 29]] ∧
      (∀ site, site ∈ sites .standard block ↔ IsSequence site stmts) ∧
      ((sites .standard block).map (·.mkdirStmt)).Sublist stmts ∧
      ((sites .standard block).flatMap DirectorySite.stmts).Nodup := by
  intro text temporary file call stmts block
  have distinct : stmts.Nodup := List.Nodup.of_map (fun s : Stmt => s.id) (by decide +kernel)
  exact ⟨distinct, by decide +kernel, sites_are_sequences block distinct⟩

/-! ## What happens to a file before it is a directory -/

/-- An assignment to the local, or a call of `delete()` on it. -/
inductive Disturbs (name : String) : Expr → Prop where
  | assigns {id : NodeId} {ty : Ty} {op : Option BinaryOp} {target value : Expr}
      (named : target.unparen.localName? = some name) :
      Disturbs name ⟨id, ty, .assign op target value⟩
  | deletes {e : Expr} (calls : CallsOn delete name e) : Disturbs name e

/-- Somewhere in the statement the local is assigned or deleted. -/
def Touches (name : String) (stmt : Stmt) : Prop :=
  ∃ e, Node.expr e ∈ (Node.stmt stmt).subtree ∧ Disturbs name e

/-- The statements show at their tops what they do to the local: one in which it is assigned or
deleted sets it or is a step that deletes it, and no step deletes what is deleted already. -/
structure Shows (name : String) (stmts : List Stmt) : Prop where
  tops : ∀ s ∈ stmts, Touches name s → Sets name s ∨ Steps delete name s
  once : ∀ before d between d' after, stmts = before ++ d :: (between ++ d' :: after) →
    Steps delete name d → Steps delete name d' → ∃ s ∈ between, Sets name s ∨ Steps mkdir name s

variable {name : String} {stmt : Stmt} {block : Block} {site : DirectorySite} {e : Expr}

/-- The local that an expression assigns or deletes. -/
def disturbed? (e : Expr) : Option String :=
  match e.form with
  | .assign _ target _ => target.unparen.localName?
  | _ => if CallMatcher.standard.acceptsAny e delete then e.receiver?.bind (·.unparen.localName?) else none

theorem disturbs_iff : Disturbs name e ↔ disturbed? e = some name := by
  have calls : CallsOn delete name e ↔ (if CallMatcher.standard.acceptsAny e delete then
      e.receiver?.bind (·.unparen.localName?) else none) = some name := by
    rw [Option.ite_none_right_eq_some, Option.bind_eq_some_iff]
    exact ⟨fun ⟨accepted, receiver⟩ => ⟨accepted, receiver⟩, fun ⟨accepted, receiver⟩ => ⟨accepted, receiver⟩⟩
  obtain ⟨id, ty, form⟩ := e
  cases form with
  | assign op target value =>
    constructor
    · rintro (named | ⟨-, receiver, found, -⟩)
      · exact named
      · cases found
    · exact .assigns
  | _ =>
    refine Iff.trans ⟨?_, .deletes⟩ calls
    rintro (_ | calls)
    exact calls

/-- The locals that are assigned or deleted somewhere in a statement. -/
def touched (stmt : Stmt) : List String :=
  ((Node.stmt stmt).subtree.filterMap Node.expr?).filterMap disturbed?

theorem touches_iff : Touches name stmt ↔ name ∈ touched stmt := by
  simp only [Touches, touched, List.mem_filterMap, disturbs_iff]
  constructor
  · rintro ⟨e, mem, disturbs⟩
    exact ⟨e, ⟨.expr e, mem, rfl⟩, disturbs⟩
  · rintro ⟨e, ⟨n, mem, isExpr⟩, disturbs⟩
    cases n <;> cases isExpr
    exact ⟨e, mem, disturbs⟩

/-- A statement binds one local. -/
theorem Binds.unique {other : String} {create create' : Expr} (binds : Binds name create stmt)
    (binds' : Binds other create' stmt) : name = other := by
  have same := (binding?_eq_some_iff.mpr binds).symm.trans (binding?_eq_some_iff.mpr binds')
  exact congrArg Prod.fst (Option.some.inj same)

/-- If the statements of a block show what they do to a local, then between the statements of a
site on it none assigns it, and none but the one that deletes it deletes it. -/
theorem sites_undisturbed (reported : site ∈ sites .standard block)
    (binds : Binds name site.create site.createStmt) (shown : Shows name block.stmts) :
    ∃ before between waiting after,
      block.stmts = before ++ site.createStmt :: (between ++ site.deleteStmt :: waiting) ++
        site.mkdirStmt :: after ∧
      ∀ s ∈ between ++ waiting, ¬ Touches name s := by
  have sequence : IsSequence site block.stmts := (mem_sites_scan block.stmts).mp reported
  generalize block.stmts = stmts at sequence shown
  obtain ⟨binds', deletes, makes, first, next, unset⟩ := sequence
  rename_i other before between waiting after
  obtain rfl := binds.unique binds'
  refine ⟨before, between, waiting, after, rfl, fun s mem touches => ?_⟩
  have among : s ∈ between ++ site.deleteStmt :: waiting :=
    List.mem_append.mpr ((List.mem_append.mp mem).imp_right (List.mem_cons_of_mem _))
  have inBlock : s ∈ before ++ site.createStmt :: (between ++ site.deleteStmt :: waiting) ++
      site.mkdirStmt :: after :=
    List.mem_append_left _ (List.mem_append_right _ (List.mem_cons_of_mem _ among))
  rcases shown.tops s inBlock touches with sets | deletes'
  · exact unset s among sets
  rcases List.mem_append.mp mem with earlier | later
  · exact first s earlier deletes'
  -- A second step that deletes would have to come after a statement that ends the sequence.
  obtain ⟨front, back, rfl⟩ := List.append_of_mem later
  obtain ⟨t, within, ends⟩ := shown.once (before ++ site.createStmt :: between) site.deleteStmt
    front s (back ++ site.mkdirStmt :: after) (by simp) deletes deletes'
  rcases ends with sets | makes'
  · exact unset t (by simp [within]) sets
  · exact next t (List.mem_append_left _ within) makes'

/-- `File f = File.createTempFile("a", "b"); g = h; if (!f.delete()) { f = g; }
if (flag) { g.delete(); } f.mkdir(); f = g;` -/
theorem sites_undisturbed_otherLocal :
    let text (id : NodeId) (value : String) : Expr := ⟨id, .string, .literal (.string value)⟩
    let file (id : NodeId) (name : String) : Expr := ⟨id, .file, .ident name none⟩
    let create : Expr := ⟨3, .file, .call (some (file 4 "File")) "createTempFile"
      [text 5 "a", text 6 "b"] (some Jdk.fileCreateTempFile)⟩
    let call (id : NodeId) (name : String) (method : MethodRef) : Expr :=
      ⟨id, .boolean, .call (some (file (id + 1) name)) method.name [] (some method)⟩
    let assign (id : NodeId) (name value : String) : Stmt :=
      ⟨id, .expr ⟨id + 1, .file, .assign none (file (id + 2) name) (file (id + 3) value)⟩⟩
    let createStmt : Stmt := ⟨1, .declare ⟨[], "File", [⟨2, "f", .file, some create⟩]⟩⟩
    let deleteStmt : Stmt := ⟨11, .ifElse ⟨12, .boolean, .unary .not (call 13 "f" Jdk.fileDelete)⟩
      ⟨15, .block ⟨16, false, [assign 17 "f" "g"]⟩⟩ none⟩
    let mkdirStmt : Stmt := ⟨27, .expr (call 28 "f" Jdk.fileMkdir)⟩
    let block : Block := ⟨0, false, [createStmt, assign 7 "g" "h", deleteStmt,
      ⟨21, .ifElse ⟨22, .boolean, .ident "flag" none⟩
        ⟨23, .expr (call 24 "g" Jdk.fileDelete)⟩ none⟩,
      mkdirStmt, assign 30 "f" "g"]⟩
    let site : DirectorySite := ⟨create, createStmt, deleteStmt, mkdirStmt⟩
    site ∈ sites .standard block ∧ Binds "f" create createStmt ∧ Shows "f" block.stmts ∧
      ∃ before between waiting after,
        block.stmts = before ++ createStmt :: (between ++ deleteStmt :: waiting) ++
          mkdirStmt :: after ∧
        ∀ s ∈ between ++ waiting, ¬ Touches "f" s := by
  intro text file create call assign createStmt deleteStmt mkdirStmt block site
  have binds : Binds "f" create createStmt := .declaration rfl rfl rfl rfl (by decide +kernel)
  have deletes : Steps delete "f" deleteStmt := step?_eq_some_iff.mp (by decide +kernel)
  have makes : Steps mkdir "f" mkdirStmt := step?_eq_some_iff.mp (by decide +kernel)
  have reported : site ∈ sites .standard block := by
    have among : ∀ s ∈ block.stmts.tail.take 3, step? .standard mkdir s ≠ some "f" ∧
        (step? .standard delete s = some "f" → s.id = 11) ∧
        (binding? .standard s).map (·.1) ≠ some "f" ∧ assigned? s ≠ some "f" := by decide +kernel
    refine (mem_sites_scan block.stmts).mpr (@IsSequence.intro site "f" [] [assign 7 "g" "h"]
      [block.stmts[3]] [assign 30 "f" "g"] binds deletes makes ?_ ?_ ?_)
    · intro s mem step
      cases List.mem_singleton.mp mem
      exact absurd ((among _ (by simp [block])).2.1 (step?_eq_some_iff.mpr step)) (by decide)
    · intro s mem step
      cases List.mem_singleton.mp mem
      exact (among _ (by simp [block])).1 (step?_eq_some_iff.mpr step)
    · rintro s mem (⟨create, binds⟩ | assigns)
      · exact (among s mem).2.2.1 (by rw [binding?_eq_some_iff.mpr binds]; rfl)
      · exact (among s mem).2.2.2 (assigned?_eq_some_iff.mpr assigns)
  have shown : Shows "f" block.stmts := by
    have tops : ∀ s ∈ block.stmts, "f" ∈ touched s → assigned? s = some "f" ∨
        step? .standard delete s = some "f" := by decide +kernel
    have once : ∀ s ∈ block.stmts, step? .standard delete s = some "f" → s.id = 11 := by
      decide +kernel
    have distinct : (block.stmts.map (·.id)).Nodup := by decide
    refine ⟨fun s mem touches => ?_, fun before d between d' after split_ first second => ?_⟩
    · refine (tops s mem (touches_iff.mp touches)).imp (fun assigns => ?_) step?_eq_some_iff.mp
      exact .inr (assigned?_eq_some_iff.mp assigns)
    · have here := once d (by simp [split_]) (step?_eq_some_iff.mpr first)
      have there := once d' (by simp [split_]) (step?_eq_some_iff.mpr second)
      rw [split_] at distinct
      simp [List.nodup_append, here, there] at distinct
  exact ⟨reported, binds, shown, sites_undisturbed reported binds shown⟩

end TempDirectory

end JavaMend
