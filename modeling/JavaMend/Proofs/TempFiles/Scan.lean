import JavaMend.Proofs.Remedy.Notes
import Mathlib.Data.List.Forall2
import Mathlib.Data.List.Induction

/-!
# The scan for temporary directories

The scan of a block reads one event off each statement (`event`), and follows each local by
itself. Where a call gives way to another one, the statement that bound it binds no longer.
`Echo` says what is left of the events, and `Mirrors` relates the scan of the statements to
the scan of what has become of them, where some of them may have been dropped: the sites
whose calls do not give way are found again (`sites_mirror`).

A statement is dropped only if it is a step of a site whose call gives way. That it belongs
to this site when the scan comes to it is traced from the site backwards (`step_of_site`).
-/

namespace JavaMend

/-- The locals that a statement sets itself, by an assignment or an initialiser. -/
def Stmt.setNames (stmt : Stmt) : List String :=
  match stmt.form with
  | .declare decl => (decl.vars.filter (·.init.isSome)).map (·.name)
  | .expr ⟨_, _, .assign _ target _⟩ => target.localName?.toList
  | _ => []

namespace TempDirectory

/-! ## Events -/

/-- What a statement is to the scan. -/
inductive Event where
  | binds (name : String) (create : Expr)
  | sets (name : String)
  | deletes (name : String)
  | makes (name : String)
  | idle

/-- The event of a statement. -/
def event (matcher : CallMatcher) (stmt : Stmt) : Event :=
  match binding? matcher stmt, assigned? stmt, step? matcher delete stmt, step? matcher mkdir stmt with
  | some (name, create), _, _, _ => .binds name create
  | none, some name, _, _ => .sets name
  | none, none, some name, _ => .deletes name
  | none, none, none, some name => .makes name
  | none, none, none, none => .idle

/-- What is known after a statement of that event. -/
def Progress.after (p : Progress) (stmt : Stmt) : Event → Progress
  | .binds name create => p.remember name ⟨create, stmt, none⟩
  | .sets name => p.forget name
  | .deletes name =>
    match p.candidates.lookup name with
    | some ⟨create, createStmt, none⟩ => p.remember name ⟨create, createStmt, some stmt⟩
    | _ => p
  | .makes name =>
    match p.candidates.lookup name with
    | some ⟨create, createStmt, some deleteStmt⟩ =>
      { p.forget name with sites := p.sites ++ [⟨create, createStmt, deleteStmt, stmt⟩] }
    | _ => p
  | .idle => p

/-- What is known after some statements. -/
def scan (matcher : CallMatcher) (stmts : List Stmt) : Progress :=
  stmts.foldl (Progress.next matcher) ⟨[], []⟩

section

variable {matcher : CallMatcher} {p p' : Progress} {s s' : Stmt} {name other : String}
  {create : Expr} {c : Candidate} {site : DirectorySite}

theorem Progress.next_eq : p.next matcher s = p.after s (event matcher s) := by
  unfold next event
  cases binding? matcher s with
  | some bound => rfl
  | none =>
    cases assigned? s with
    | some name => rfl
    | none =>
      cases step? matcher delete s with
      | some name => rfl
      | none => cases step? matcher mkdir s <;> rfl

theorem scan_append (stmts : List Stmt) (s : Stmt) :
    scan matcher (stmts ++ [s]) = (scan matcher stmts).after s (event matcher s) := by
  rw [scan, List.foldl_append, List.foldl_cons, List.foldl_nil, Progress.next_eq]
  rfl

theorem binding?_of_event (binds : event matcher s = .binds name create) :
    binding? matcher s = some (name, create) := by
  unfold event at binds
  split at binds <;> cases binds
  assumption

theorem binding?_eq_none_iff :
    binding? matcher s = none ↔ ∀ name create, event matcher s ≠ .binds name create := by
  refine ⟨fun none name create binds => ?_, fun other => ?_⟩
  · cases none.symm.trans (binding?_of_event binds)
  · by_contra some
    obtain ⟨⟨name, create⟩, binds⟩ := Option.ne_none_iff_exists'.mp some
    refine other name create ?_
    unfold event
    rw [binds]

/-- A statement binds a local by a declaration or by an assignment. -/
theorem binding?_cases (binds : binding? matcher s = some (name, create)) :
    (∃ id modifiers typeName v init, s = ⟨id, .declare ⟨modifiers, typeName, [v]⟩⟩ ∧ v.name = name ∧
      v.init = some init ∧ init.unparen = create) ∨
    ∃ id id' ty target value, s = ⟨id, .expr ⟨id', ty, .assign none target value⟩⟩ ∧
      target.localName? = some name ∧ value.unparen = create := by
  obtain ⟨id, form⟩ := s
  unfold binding? at binds
  dsimp only at binds
  split at binds
  next modifiers typeName v =>
    obtain ⟨init, hinit, binds⟩ := Option.bind_eq_some_iff.mp binds
    obtain ⟨_, -, binds⟩ := Option.bind_eq_some_iff.mp binds
    cases binds
    exact .inl ⟨id, modifiers, typeName, v, init, rfl, rfl, hinit, rfl⟩
  next id' ty target value =>
    obtain ⟨_, -, binds⟩ := Option.bind_eq_some_iff.mp binds
    obtain ⟨local_, found, binds⟩ := Option.bind_eq_some_iff.mp binds
    cases binds
    exact .inr ⟨id, id', ty, target, value, rfl, found, rfl⟩
  next => cases binds

/-- A local that is bound to a new file is set. -/
theorem setNames_of_binding? (binds : binding? matcher s = some (name, create)) :
    name ∈ s.setNames := by
  rcases binding?_cases binds with
    ⟨id, modifiers, typeName, v, init, rfl, rfl, initialised, -⟩ |
    ⟨id, id', ty, target, value, rfl, found, -⟩
  · simp [Stmt.setNames, initialised]
  · exact Option.mem_toList.mpr found

/-! ## Locals -/

theorem Progress.lookup_forget :
    (p.forget name).candidates.lookup other =
      if other = name then none else p.candidates.lookup other := by
  split
  next same =>
    subst same
    rw [List.lookup_eq_none_iff]
    intro entry mem
    rw [bne_comm]
    exact (List.mem_filter.mp mem).2
  next differs => exact Frame.lookup_filter_of_ne differs

theorem Progress.lookup_remember :
    (p.remember name c).candidates.lookup other =
      if other = name then some c else p.candidates.lookup other := by
  show List.lookup other ((name, c) :: (p.forget name).candidates) = _
  rw [List.lookup_cons, lookup_forget]
  by_cases same : other = name
  · rw [beq_iff_eq.mpr same, if_pos same, if_pos same]
  · rw [beq_eq_false_iff_ne.mpr same, if_neg same, if_neg same]

/-! ## Where sites come from -/

/-- What is known comes from the statements that were read. -/
structure Progress.Traced (matcher : CallMatcher) (done : List Stmt) (p : Progress) : Prop where
  candidates : ∀ name c, p.candidates.lookup name = some c →
    c.createStmt ∈ done ∧ event matcher c.createStmt = .binds name c.create ∧
      ∀ d, c.deleteStmt = some d → d ∈ done ∧ event matcher d = .deletes name
  sites : ∀ site ∈ p.sites, ∃ name,
    (site.createStmt ∈ done ∧ event matcher site.createStmt = .binds name site.create) ∧
    (site.deleteStmt ∈ done ∧ event matcher site.deleteStmt = .deletes name) ∧
    site.mkdirStmt ∈ done ∧ event matcher site.mkdirStmt = .makes name

theorem Progress.Traced.more {done : List Stmt} (h : p.Traced matcher done) (s : Stmt) :
    p.Traced matcher (done ++ [s]) where
  candidates name c found := by
    obtain ⟨create, binds, deletes⟩ := h.candidates name c found
    exact ⟨List.mem_append_left _ create, binds, fun d some =>
      (deletes d some).imp_left (List.mem_append_left _)⟩
  sites site mem := by
    obtain ⟨name, create, delete, mkdir⟩ := h.sites site mem
    exact ⟨name, create.imp_left (List.mem_append_left _), delete.imp_left (List.mem_append_left _),
      mkdir.imp_left (List.mem_append_left _)⟩

theorem Progress.Traced.forget {done : List Stmt} (h : p.Traced matcher done) (name : String) :
    (p.forget name).Traced matcher done where
  candidates other c found := by
    rw [lookup_forget] at found
    split at found
    · cases found
    · exact h.candidates other c found
  sites := h.sites

theorem Progress.Traced.remember {done : List Stmt} (h : p.Traced matcher done)
    (create : c.createStmt ∈ done) (binds : event matcher c.createStmt = .binds name c.create)
    (deletes : ∀ d, c.deleteStmt = some d → d ∈ done ∧ event matcher d = .deletes name) :
    (p.remember name c).Traced matcher done where
  candidates other c' found := by
    rw [lookup_remember] at found
    split at found
    next same =>
      cases found
      exact same ▸ ⟨create, binds, deletes⟩
    next => exact h.candidates other c' found
  sites := h.sites

theorem Progress.Traced.next {done : List Stmt} (h : p.Traced matcher done) (s : Stmt) :
    (p.after s (event matcher s)).Traced matcher (done ++ [s]) := by
  have last : s ∈ done ++ [s] := List.mem_append_right _ List.mem_cons_self
  replace h := h.more s
  cases at_ : event matcher s with
  | binds name create => exact h.remember last at_ fun d none => nomatch none
  | sets name => exact h.forget name
  | deletes name =>
    unfold after
    dsimp only
    split
    next create createStmt found =>
      obtain ⟨mem, binds, -⟩ := h.candidates _ _ found
      refine h.remember mem binds fun d here => ?_
      cases here
      exact ⟨last, at_⟩
    next => exact h
  | makes name =>
    unfold after
    dsimp only
    split
    next create createStmt deleteStmt found =>
      obtain ⟨mem, binds, deletes⟩ := h.candidates _ _ found
      refine ⟨(h.forget name).candidates, fun site here => ?_⟩
      rcases List.mem_append.mp here with here | here
      · exact h.sites site here
      · cases List.mem_singleton.mp here
        exact ⟨name, ⟨mem, binds⟩, deletes _ rfl, last, at_⟩
    next => exact h
  | idle => exact h

theorem scan_traced (stmts : List Stmt) : (scan matcher stmts).Traced matcher stmts := by
  induction stmts using List.reverseRecOn with
  | nil => exact ⟨fun _ _ found => (nomatch found), fun _ mem => (nomatch mem)⟩
  | append_singleton stmts s ih =>
    rw [scan_append]
    exact ih.next s

/-- What has `s` for a step has a call for which `ok` holds. -/
structure Progress.Keeps (s : Stmt) (ok : Expr → Prop) (p : Progress) : Prop where
  candidates : ∀ name c, p.candidates.lookup name = some c → c.deleteStmt = some s → ok c.create
  sites : ∀ site ∈ p.sites, site.deleteStmt = s ∨ site.mkdirStmt = s → ok site.create

theorem Progress.Keeps.forget {ok : Expr → Prop} (h : p.Keeps s ok) (name : String) :
    (p.forget name).Keeps s ok where
  candidates other c found := by
    rw [lookup_forget] at found
    split at found
    · cases found
    · exact h.candidates other c found
  sites := h.sites

theorem Progress.Keeps.remember {ok : Expr → Prop} (h : p.Keeps s ok)
    (new : c.deleteStmt = some s → ok c.create) : (p.remember name c).Keeps s ok where
  candidates other c' found := by
    rw [lookup_remember] at found
    split at found
    next =>
      cases found
      exact new
    next => exact h.candidates other c' found
  sites := h.sites

/-- Reading a statement. What it is a step of is what its local was bound to. -/
theorem Progress.Keeps.next {ok : Expr → Prop} (h : p.Keeps s ok) (t : Stmt)
    (here : t = s → ∀ name c, event matcher t = .deletes name ∨ event matcher t = .makes name →
      p.candidates.lookup name = some c → ok c.create) :
    (p.after t (event matcher t)).Keeps s ok := by
  cases at_ : event matcher t with
  | binds name create => exact h.remember fun none => nomatch none
  | sets name => exact h.forget name
  | deletes name =>
    unfold after
    dsimp only
    split
    next create createStmt found =>
      refine h.remember fun same => ?_
      exact here (Option.some.inj same) _ ⟨create, createStmt, none⟩ (.inl at_) found
    next => exact h
  | makes name =>
    unfold after
    dsimp only
    split
    next create createStmt deleteStmt found =>
      refine ⟨(h.forget name).candidates, fun site mem step => ?_⟩
      rcases List.mem_append.mp mem with mem | mem
      · exact h.sites site mem step
      · cases List.mem_singleton.mp mem
        rcases step with deletes | makes
        · exact h.candidates _ _ found (congrArg some deletes)
        · exact here makes _ _ (.inr at_) found
    next => exact h
  | idle => exact h

/-- A step of a site belonged to its file when the scan came to it. -/
theorem step_of_site {done rest : List Stmt} (nodup : (done ++ s :: rest).Nodup)
    (found : site ∈ (scan matcher (done ++ s :: rest)).sites)
    (step : site.deleteStmt = s ∨ site.mkdirStmt = s) :
    ∃ name c, (event matcher s = .deletes name ∨ event matcher s = .makes name) ∧
      (scan matcher done).candidates.lookup name = some c ∧ site.create = c.create := by
  have fresh : s ∉ done := fun mem => (List.nodup_append.mp nodup).2.2 _ mem _ List.mem_cons_self rfl
  have later : s ∉ rest := (List.nodup_cons.mp (List.nodup_append.mp nodup).2.1).1
  have traced : (scan matcher done).Traced matcher done := scan_traced done
  let ok (create : Expr) : Prop :=
    ∃ name c, (event matcher s = .deletes name ∨ event matcher s = .makes name) ∧
      (scan matcher done).candidates.lookup name = some c ∧ create = c.create
  have before : (scan matcher done).Keeps s ok := by
    refine ⟨fun name c found deletes => ?_, fun site mem step => ?_⟩
    · exact (fresh ((traced.candidates name c found).2.2 s deletes).1).elim
    · obtain ⟨_, -, delete, mkdir, -⟩ := traced.sites site mem
      rcases step with rfl | rfl
      · exact (fresh delete.1).elim
      · exact (fresh mkdir).elim
  have start : (scan matcher (done ++ [s])).Keeps s ok := by
    rw [scan_append]
    exact before.next s fun _ name c reads found => ⟨name, c, reads, found, rfl⟩
  have all : ∀ (rest : List Stmt) (p : Progress), s ∉ rest → p.Keeps s ok →
      (rest.foldl (Progress.next matcher) p).Keeps s ok := by
    intro rest
    induction rest with
    | nil => exact fun p _ h => h
    | cons t rest ih =>
      intro p absent h
      refine ih _ (fun mem => absent (List.mem_cons_of_mem _ mem)) ?_
      rw [Progress.next_eq]
      exact h.next t fun same => (absent (same ▸ List.mem_cons_self)).elim
  have ended := all rest _ later start
  rw [scan, ← List.foldl_append, List.append_assoc] at ended
  exact ended.sites site found step

/-! ## Two scans in step -/

variable {gives : Expr → Bool} {turns : Expr → Expr → Prop} {pair : Stmt → Stmt → Prop}

/-- What is left of the event of a statement when the calls that give way have given way:
an assignment still sets its local, and a declaration is no event any more. -/
inductive Echo (gives : Expr → Bool) (turns : Expr → Expr → Prop) (s : Stmt) : Event → Event → Prop where
  | binds {name : String} {create create' : Expr} (stays : gives create = false)
      (turned : turns create create') : Echo gives turns s (.binds name create) (.binds name create')
  | sets {name : String} {create : Expr} (given : gives create = true) :
      Echo gives turns s (.binds name create) (.sets name)
  | declares {name : String} {create : Expr} (given : gives create = true)
      (declared : name ∈ s.declaredNames) : Echo gives turns s (.binds name create) .idle
  | same {e : Event} (other : ∀ name create, e ≠ .binds name create) : Echo gives turns s e e

/-- A file of one scan is the file of another one. -/
structure Candidate.Mirrored (turns : Expr → Expr → Prop) (pair : Stmt → Stmt → Prop)
    (c c' : Candidate) : Prop where
  create : turns c.create c'.create
  createStmt : pair c.createStmt c'.createStmt
  deleteStmt : Option.Rel pair c.deleteStmt c'.deleteStmt

/-- A site of one scan is the site of another one. -/
structure DirectorySite.Mirrored (turns : Expr → Expr → Prop) (pair : Stmt → Stmt → Prop)
    (site site' : DirectorySite) : Prop where
  create : turns site.create site'.create
  createStmt : pair site.createStmt site'.createStmt
  deleteStmt : pair site.deleteStmt site'.deleteStmt
  mkdirStmt : pair site.mkdirStmt site'.mkdirStmt

/-- One scan knows the files of another one whose calls do not give way. -/
structure Progress.Mirrors (gives : Expr → Bool) (turns : Expr → Expr → Prop)
    (pair : Stmt → Stmt → Prop) (p p' : Progress) : Prop where
  locals : ∀ name, Option.Rel (Candidate.Mirrored turns pair)
    ((p.candidates.lookup name).filter (!gives ·.create)) (p'.candidates.lookup name)
  sites : List.Forall₂ (DirectorySite.Mirrored turns pair)
    (p.sites.filter (!gives ·.create)) p'.sites

namespace Progress.Mirrors

/-- A file whose call gives way is not known. -/
theorem lookup_given (h : p.Mirrors gives turns pair p') (found : p.candidates.lookup name = some c)
    (given : gives c.create = true) : p'.candidates.lookup name = none := by
  have at_ := h.locals name
  rw [found, Option.filter_some, given] at at_
  cases at_' : p'.candidates.lookup name with
  | none => rfl
  | some c' =>
    rw [at_'] at at_
    cases at_

theorem lookup_none (h : p.Mirrors gives turns pair p') (none_ : p.candidates.lookup name = none) :
    p'.candidates.lookup name = none := by
  have at_ := h.locals name
  rw [none_] at at_
  cases at_' : p'.candidates.lookup name with
  | none => rfl
  | some c' =>
    rw [at_'] at at_
    cases at_

theorem lookup_some (h : p.Mirrors gives turns pair p') (found : p.candidates.lookup name = some c)
    (stays : gives c.create = false) :
    ∃ c', p'.candidates.lookup name = some c' ∧ c.Mirrored turns pair c' := by
  have at_ := h.locals name
  rw [found, Option.filter_some, stays] at at_
  cases at_' : p'.candidates.lookup name with
  | none =>
    rw [at_'] at at_
    cases at_
  | some c' =>
    rw [at_'] at at_
    cases at_ with
    | some mirrored => exact ⟨c', rfl, mirrored⟩

theorem forget (h : p.Mirrors gives turns pair p') (name : String) :
    (p.forget name).Mirrors gives turns pair (p'.forget name) where
  locals other := by
    rw [lookup_forget, lookup_forget]
    split
    · exact .none
    · exact h.locals other
  sites := h.sites

theorem remember {c' : Candidate} (h : p.Mirrors gives turns pair p') (stays : gives c.create = false)
    (mirrored : c.Mirrored turns pair c') (name : String) :
    (p.remember name c).Mirrors gives turns pair (p'.remember name c') where
  locals other := by
    rw [lookup_remember, lookup_remember]
    split
    · rw [Option.filter_some, stays]
      exact .some mirrored
    · exact h.locals other
  sites := h.sites

/-- The other scan can do without what gives way. -/
theorem remember_given (h : p.Mirrors gives turns pair p') (given : gives c.create = true)
    (unknown : p'.candidates.lookup name = none) :
    (p.remember name c).Mirrors gives turns pair p' where
  locals other := by
    rw [lookup_remember]
    split
    next same =>
      rw [same, unknown, Option.filter_some, given]
      exact .none
    next => exact h.locals other
  sites := h.sites

theorem forget_given (h : p.Mirrors gives turns pair p')
    (unknown : p'.candidates.lookup name = none) : (p.forget name).Mirrors gives turns pair p' where
  locals other := by
    rw [lookup_forget]
    split
    next same =>
      rw [same, unknown]
      exact .none
    next => exact h.locals other
  sites := h.sites

/-- A step with a file whose call gives way. -/
theorem step_given (h : p.Mirrors gives turns pair p') {e : Event}
    (reads : e = .deletes name ∨ e = .makes name) (found : p.candidates.lookup name = some c)
    (given : gives c.create = true) : (p.after s e).Mirrors gives turns pair p' := by
  have unknown := h.lookup_given found given
  obtain ⟨create, createStmt, deleteStmt⟩ := c
  rcases reads with rfl | rfl <;> unfold after <;> dsimp only <;> rw [found]
  · cases deleteStmt with
    | none => exact h.remember_given given unknown
    | some d => exact h
  · cases deleteStmt with
    | none => exact h
    | some d =>
      refine ⟨(h.forget_given unknown).locals, ?_⟩
      dsimp only
      rw [List.filter_append, List.filter_cons_of_neg (by simp [given]), List.filter_nil,
        List.append_nil]
      exact h.sites

/-- A statement that is no event to the other scan, as the local is unknown there. -/
theorem after_unknown {e : Event} (reads : e = .deletes name ∨ e = .makes name)
    (unknown : p.candidates.lookup name = none) : p.after s e = p := by
  rcases reads with rfl | rfl <;> unfold after <;> dsimp only <;> rw [unknown]

/-- A step, with whatever the local is bound to. -/
theorem step (h : p.Mirrors gives turns pair p') (paired : pair s s') {e : Event}
    (reads : e = .deletes name ∨ e = .makes name) :
    (p.after s e).Mirrors gives turns pair (p'.after s' e) := by
  cases found : p.candidates.lookup name with
  | none =>
    rw [after_unknown reads found, after_unknown reads (h.lookup_none found)]
    exact h
  | some c =>
    cases given : gives c.create with
    | true =>
      rw [after_unknown (s := s') reads (h.lookup_given found given)]
      exact h.step_given reads found given
    | false =>
      obtain ⟨c', found', mirrored⟩ := h.lookup_some found given
      obtain ⟨create, createStmt, deleteStmt⟩ := c
      obtain ⟨create', createStmt', deleteStmt'⟩ := c'
      obtain ⟨turned, created, deleted⟩ := mirrored
      rcases reads with rfl | rfl <;> unfold after <;> dsimp only <;> rw [found, found']
      · cases deleted with
        | none =>
          have mirrored : Candidate.Mirrored turns pair ⟨create, createStmt, some s⟩
            ⟨create', createStmt', some s'⟩ := ⟨turned, created, .some paired⟩
          exact h.remember (c := ⟨create, createStmt, some s⟩) given mirrored name
        | some => exact h
      · cases deleted with
        | none => exact h
        | some deleted =>
          refine ⟨(h.forget name).locals, ?_⟩
          dsimp only
          rw [List.filter_append, List.filter_cons_of_pos (by simp [given]), List.filter_nil]
          exact List.rel_append h.sites (.cons ⟨turned, created, deleted, paired⟩ .nil)

/-- One more statement. A declaration must not take the place of an earlier local. -/
theorem next (h : p.Mirrors gives turns pair p') (paired : pair s s') {e e' : Event}
    (echo : Echo gives turns s e e')
    (unset : ∀ name ∈ s.declaredNames, p.candidates.lookup name = none) :
    (p.after s e).Mirrors gives turns pair (p'.after s' e') := by
  cases echo with
  | binds stays turned => exact h.remember stays ⟨turned, paired, .none⟩ _
  | @sets name create given =>
    have forgot := h.forget name
    have unknown : (p'.forget name).candidates.lookup name = none := by
      rw [lookup_forget, if_pos rfl]
    refine ⟨fun other => ?_, h.sites⟩
    have at_ := (forgot.remember_given (c := ⟨create, s, none⟩) given unknown).locals other
    rw [lookup_remember, lookup_forget] at at_
    show Option.Rel _ ((List.lookup other (p.remember name _).candidates).filter _) _
    rw [lookup_remember]
    split at at_
    next same => rwa [if_pos same]
    next differs => rwa [if_neg differs]
  | declares given declared =>
    exact h.remember_given given (h.lookup_none (unset _ declared))
  | same other =>
    cases e with
    | binds name create => exact (other name create rfl).elim
    | sets name => exact h.forget name
    | deletes name => exact h.step paired (.inl rfl)
    | makes name => exact h.step paired (.inr rfl)
    | idle => exact h

end Progress.Mirrors

/-- No statement that sets a local comes before one that declares it. -/
abbrev Ordered (stmts : List Stmt) : Prop :=
  stmts.Pairwise fun s t => ∀ name ∈ s.setNames, name ∉ t.declaredNames

/-- The sites whose calls do not give way are found again, if only steps of the others are
dropped. -/
theorem sites_mirror {stmts stmts' : List Stmt} {drops : Stmt → Bool} (nodup : stmts.Nodup)
    (ordered : Ordered stmts)
    (dropped : ∀ s ∈ stmts, drops s = true → ∃ site ∈ (scan matcher stmts).sites,
      gives site.create = true ∧ (site.deleteStmt = s ∨ site.mkdirStmt = s))
    (echoes : ∀ s s', pair s s' → Echo gives turns s (event matcher s) (event matcher s'))
    (pairs : List.Forall₂ pair (stmts.filter (!drops ·)) stmts') :
    List.Forall₂ (DirectorySite.Mirrored turns pair)
      ((scan matcher stmts).sites.filter (!gives ·.create)) (scan matcher stmts').sites := by
  have all : ∀ (rest done done' rest' : List Stmt), stmts = done ++ rest → stmts' = done' ++ rest' →
      List.Forall₂ pair (rest.filter (!drops ·)) rest' →
      (scan matcher done).Mirrors gives turns pair (scan matcher done') →
      (scan matcher stmts).Mirrors gives turns pair (scan matcher stmts') := by
    intro rest
    induction rest with
    | nil =>
      rintro done done' rest' rfl rfl pairs h
      cases pairs
      rwa [List.append_nil, List.append_nil]
    | cons s rest ih =>
      rintro done done' rest' split split' pairs h
      cases drop : drops s with
      | true =>
        rw [List.filter_cons_of_neg (by simp [drop])] at pairs
        refine ih (done ++ [s]) done' rest' (by simp [split]) split' pairs ?_
        obtain ⟨site, mem, given, step⟩ :=
          dropped s (split ▸ List.mem_append_right _ List.mem_cons_self) drop
        rw [split] at nodup mem
        obtain ⟨name, c, reads, found, same⟩ := step_of_site nodup mem step
        rw [scan_append]
        exact h.step_given reads found (same ▸ given)
      | false =>
        rw [List.filter_cons_of_pos (by simp [drop])] at pairs
        cases pairs with
        | @cons _ s' _ rest' paired pairs =>
          refine ih (done ++ [s]) (done' ++ [s']) rest' (by simp [split]) (by simp [split']) pairs ?_
          rw [scan_append, scan_append]
          refine h.next paired (echoes s s' paired) fun name declared => ?_
          by_contra known
          obtain ⟨c, found⟩ := Option.ne_none_iff_exists'.mp known
          obtain ⟨mem, binds, -⟩ := (scan_traced done).candidates name c found
          have sets := setNames_of_binding? (binding?_of_event binds)
          rw [split] at ordered
          exact (List.pairwise_append.mp ordered).2.2 _ mem s List.mem_cons_self name sets declared
  refine (all stmts [] [] stmts' rfl rfl pairs ⟨fun name => ?_, ?_⟩).sites
  · exact .none
  · exact .nil

end

end TempDirectory

end JavaMend
