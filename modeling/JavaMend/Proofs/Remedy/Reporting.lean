import JavaMend.Proofs.Match.Members
import JavaMend.Proofs.Traversal.Triple
import JavaMend.Remedy.Privileged

/-!
# Reports of privileged code

What the search for privileged code finds is told from the tree alone: from every node in
pre-order, with the names of the classes and methods around it (`Node.privilegedSites`). The
pass answers the unit it was given and reports just these sites, each once (`pass_reports_privilegedSites`).

Between two steps of the visit there is nothing on the cursor but the findings so far, on the
root (`reporting`), so every step is computed: entering a node adds what the node itself has,
and what a child adds stands behind what the children before it did (`run_eq`).
-/

namespace JavaMend

/-! ## Privileged code -/

/-- The name of the class or the method that a node declares. -/
def Node.scopeName? (n : Node) : Option String :=
  (n.class?.map (·.1.name)).or (n.method?.map (·.1.name))

/-- Is the expression a call of `AccessController.doPrivileged`? -/
def Expr.runsPrivileged (e : Expr) : Bool :=
  e.method?.any fun m => m.name == "doPrivileged" && m.owner.names.contains Fqn.accessController

/-- What is reported of a node: a class by its name, a call as it is written. -/
def Node.privileged? (n : Node) : Option String :=
  match n.class? with
  | some (head, _) =>
    if head.ty.assignableTo Fqn.privilegedAction then some ("class " ++ head.name) else none
  | none => n.expr?.bind fun e => if e.runsPrivileged then some e.text else none

/-- The location and the text of everything privileged in a tree, in pre-order, where `around`
are the names of what the tree is in. -/
def Node.privilegedSites (around : List String) (n : Node) : List (String × String) :=
  n.privileged?.toList.map (".".intercalate (around ++ n.scopeName?.toList), ·) ++
    n.children.attach.flatMap fun ⟨c, _⟩ => c.privilegedSites (around ++ n.scopeName?.toList)
termination_by sizeOf n
decreasing_by exact Node.sizeOf_lt_of_mem_children ‹_›

theorem Node.privilegedSites_eq (around : List String) (n : Node) :
    n.privilegedSites around =
      n.privileged?.toList.map (".".intercalate (around ++ n.scopeName?.toList), ·) ++
        n.children.flatMap (·.privilegedSites (around ++ n.scopeName?.toList)) := by
  rw [privilegedSites]
  simp only [List.flatMap_subtype, List.unattach_attach]

theorem Path.nameOf?_eq (n : Node) : Path.nameOf? n = n.scopeName? := by
  cases n with
  | stmt s =>
    obtain ⟨id, form⟩ := s
    cases form <;> rfl
  | _ => rfl

namespace Privileged

/-! ## Calls -/

theorem doPrivileged_eq : doPrivileged = [.exactly "java.security.AccessController doPrivileged(..)"
    Fqn.accessController "doPrivileged" [.anySequence]] := by
  rfl

/-- The descriptor stands for the members of that name of the class, whatever they take. -/
theorem acceptsAny_doPrivileged (e : Expr) :
    CallMatcher.standard.acceptsAny e doPrivileged = e.runsPrivileged := by
  rw [Bool.eq_iff_iff, CallMatcher.acceptsAny_standard, doPrivileged_eq, Expr.runsPrivileged]
  simp [Signature.accepts_exactly, Option.any_eq_true]

theorem snippet?_eq (n : Node) : snippet? .standard n = n.privileged? := by
  unfold snippet? Node.privileged?
  cases n with
  | expr e => exact if_congr (by rw [acceptsAny_doPrivileged]) rfl rfl
  | stmt s =>
    obtain ⟨id, form⟩ := s
    cases form <;> rfl
  | _ => rfl

/-! ## The cursor of the visit -/

/-- The notes on the root: what was found so far, each finding once. -/
def noted (found : List Finding) : List (String × Note) :=
  if found.isEmpty then [] else [(Note.findingTopic.key, .findings found.eraseDups)]

/-- The cursor between two steps of the visit. -/
def reporting (root : Node) (found : List Finding) (below : List Node) : Cursor Note :=
  ⟨below.map .ofNode ++ [⟨root, noted found⟩]⟩

variable {root n : Node} {found : List Finding} {below above : List Node}

theorem path_reporting : (reporting root found below).path = ⟨below ++ [root]⟩ := by
  simp [reporting, Cursor.path, Frame.ofNode, Function.comp_def]

/-- A finding that was there before is dropped. -/
theorem eraseDups_concat (found : List Finding) (f : Finding) : (found ++ [f]).eraseDups =
    if found.eraseDups.contains f then found.eraseDups else found.eraseDups ++ [f] := by
  rw [List.eraseDups_append]
  by_cases known : f ∈ found <;> simp [List.removeAll, known, List.eraseDups_cons]

theorem modify_noted (add : List Finding → List Finding) :
    ((⟨root, noted found⟩ : Frame Note).modify Note.findingTopic [] add).2 =
      ⟨root, [(Note.findingTopic.key, .findings (add found.eraseDups))]⟩ := by
  cases found <;> rfl

theorem noteFinding_reporting (f : Finding) :
    (reporting root found below).noteFinding f = reporting root (found ++ [f]) below := by
  have split : (reporting root found below).frames = below.map .ofNode ++ ⟨root, noted found⟩ :: [] := rfl
  have after : noted (found ++ [f]) = [(Note.findingTopic.key, .findings (found ++ [f]).eraseDups)] := by
    rw [noted, if_neg (by simp)]
  have added : reporting root (found ++ [f]) below = ⟨below.map .ofNode ++
      [((⟨root, noted found⟩ : Frame Note).modify Note.findingTopic [] fun all =>
        if all.contains f then all else all ++ [f]).2]⟩ := by
    rw [modify_noted, reporting, after, eraseDups_concat]
  rw [added]
  exact congrArg Prod.snd (Cursor.atFrame_of_split split _)

theorem takeFindings_reporting : (reporting root found []).takeFindings.1 = found.eraseDups := by
  have split : (reporting root found []).frames = [] ++ ⟨root, noted found⟩ :: [] := rfl
  have taken : ((reporting root found []).takeAt 0 Note.findingTopic).1 =
      ((⟨root, noted found⟩ : Frame Note).take Note.findingTopic).1 :=
    congrArg Prod.fst (Cursor.atFrame_of_split split _)
  rw [Cursor.takeFindings]
  show Option.getD ((reporting root found []).takeAt 0 Note.findingTopic).1 [] = _
  rw [taken]
  cases found <;> rfl

/-- There are no fixes on the cursor. -/
theorem take_reporting :
    (reporting root found below).take Note.fixTopic = (none, reporting root found below) := by
  have silent (f : Frame Note) (back : List (Frame Note)) (none_ : f.read? Note.fixTopic = none) :
      (⟨f :: back⟩ : Cursor Note).take Note.fixTopic = (none, ⟨f :: back⟩) := by
    have split : (⟨f :: back⟩ : Cursor Note).frames = [] ++ f :: back := rfl
    have taken : f.take Note.fixTopic = (none, f) := by rw [Frame.take, none_]
    have at_ := Cursor.atFrame_of_split split (·.take Note.fixTopic)
    rw [taken] at at_
    exact at_
  cases below with
  | nil =>
    refine silent _ _ ?_
    cases found <;> rfl
  | cons n below => exact silent _ _ rfl

/-! ## The visit -/

/-- The names of the classes and methods among the nodes from one to the root. -/
def scopeNames (outward : List Node) : List String := outward.reverse.filterMap Node.scopeName?

theorem scopeNames_cons (n : Node) (above : List Node) :
    scopeNames (n :: above) = scopeNames above ++ n.scopeName?.toList := by
  rw [scopeNames, List.reverse_cons, List.filterMap_append]
  cases named : n.scopeName? <;> simp [scopeNames, named]

theorem location_reporting (outward : below ++ [root] = n :: above) :
    (reporting root found below).path.location = ".".intercalate (scopeNames (n :: above)) := by
  rw [path_reporting, outward, scopeNames, ← funext Path.nameOf?_eq]
  rfl

variable {remediation : String} {next : NodeId}

/-- The finding about a site. -/
def reported (remediation : String) (site : String × String) : Finding :=
  { remediation, location := site.1, snippet := site.2 }

/-- What is found about a node alone. -/
def ownFindings (remediation : String) (above : List Node) (n : Node) : List Finding :=
  n.privileged?.toList.map fun snippet =>
    reported remediation (".".intercalate (scopeNames (n :: above)), snippet)

/-- What is found in a tree, with some nodes above it. -/
def findings (remediation : String) (above : List Node) (n : Node) : List Finding :=
  (n.privilegedSites (scopeNames above)).map (reported remediation)

theorem findings_eq (remediation : String) (above : List Node) (n : Node) :
    findings remediation above n =
      ownFindings remediation above n ++ n.children.flatMap (findings remediation (n :: above)) := by
  rw [findings, Node.privilegedSites_eq, List.map_append, List.map_flatMap, ← scopeNames_cons,
    List.map_map]
  rfl

theorem enter_eq (env : PassEnv) (standard : env.matcher = .standard)
    (outward : below ++ [root] = n :: above) :
    (remedy env remediation).enter n ⟨reporting root found below, next, ()⟩ =
      .ok true ⟨reporting root (found ++ ownFindings remediation above n) below, next, ()⟩ := by
  unfold remedy
  dsimp only
  rw [standard, snippet?_eq, ownFindings]
  cases n.privileged? with
  | none =>
    rw [Option.toList_none, List.map_nil, List.append_nil]
    rfl
  | some snippet =>
    rw [Option.toList_some, List.map_cons, List.map_nil, ← noteFinding_reporting,
      ← location_reporting outward]
    rfl

/-- Visits of some children, each of which leaves the child as it is and finds something. -/
theorem mapM_inFrame_eq {visit : Node → PassM Unit Node} {finds : Node → List Finding}
    {children : List Node}
    (each : ∀ c ∈ children, ∀ found, visit c ⟨reporting root found (c :: below), next, ()⟩ =
      .ok c ⟨reporting root (found ++ finds c) (c :: below), next, ()⟩) (found : List Finding) :
    children.mapM (fun c => VisitM.inFrame c (visit c)) ⟨reporting root found below, next, ()⟩ =
      .ok children ⟨reporting root (found ++ children.flatMap finds) below, next, ()⟩ := by
  induction children generalizing found with
  | nil =>
    rw [List.mapM_nil, List.flatMap_nil, List.append_nil]
    rfl
  | cons c children ih =>
    have first : VisitM.inFrame c (visit c) ⟨reporting root found below, next, ()⟩ =
        .ok c ⟨reporting root (found ++ finds c) below, next, ()⟩ := by
      have visited := each c List.mem_cons_self found
      unfold VisitM.inFrame
      rw [show visit c { cursor := (reporting root found below).push c, next, own := () } = _ from visited]
      rfl
    have rest := ih (fun c mem => each c (List.mem_cons_of_mem _ mem)) (found ++ finds c)
    rw [List.mapM_cons, VisitM.bind_of_ok first, VisitM.bind_of_ok rest, List.flatMap_cons,
      ← List.append_assoc]
    rfl

/-- Where nothing is to be fixed, a block is left as it is. -/
theorem repair_reporting (splicer : Splicer) (before after : Block) :
    (repair splicer before after : PassM Unit Block) ⟨reporting root found below, next, ()⟩ =
      .ok after ⟨reporting root found below, next, ()⟩ := by
  have taken : (VisitM.modifyCursor (·.take Note.fixTopic) : PassM Unit (Option PendingFixes))
      ⟨reporting root found below, next, ()⟩ = .ok none ⟨reporting root found below, next, ()⟩ := by
    unfold VisitM.modifyCursor
    dsimp only
    rw [take_reporting]
  rw [repair, VisitM.bind_of_ok taken]
  rfl

theorem visit_eq {env : PassEnv} {entered left : List Finding} {descend : PassM Unit Node}
    (enters : (remedy env remediation).enter n ⟨reporting root found below, next, ()⟩ =
      .ok true ⟨reporting root entered below, next, ()⟩)
    (descends : descend ⟨reporting root entered below, next, ()⟩ =
      .ok n ⟨reporting root left below, next, ()⟩) :
    ((remedy env remediation).visitor env).visit n descend ⟨reporting root found below, next, ()⟩ =
      .ok n ⟨reporting root left below, next, ()⟩ := by
  unfold Remedy.visitor
  dsimp only
  rw [VisitM.bind_of_ok enters, if_pos rfl, VisitM.bind_of_ok descends]
  cases n with
  | block b =>
    show (repair env.splicer b b >>= fun after => pure (Node.block after) : PassM Unit Node) _ = _
    rw [VisitM.bind_of_ok (repair_reporting env.splicer b b)]
    rfl
  | _ => rfl

theorem run_eq (env : PassEnv) (standard : env.matcher = .standard)
    (outward : below ++ [root] = n :: above) (found : List Finding) :
    ((remedy env remediation).visitor env).run n ⟨reporting root found below, next, ()⟩ =
      .ok n ⟨reporting root (found ++ findings remediation above n) below, next, ()⟩ := by
  induction n using Node.inductionOn generalizing found below above with
  | step n ih =>
    have visits (c : Node) (mem : c ∈ n.children) (found : List Finding) :
        ((remedy env remediation).visitor env).run c ⟨reporting root found (c :: below), next, ()⟩ =
          .ok c ⟨reporting root (found ++ findings remediation (n :: above) c) (c :: below), next, ()⟩ := by
      have outward' : (c :: below) ++ [root] = c :: n :: above := congrArg (c :: ·) outward
      exact ih c mem outward' found
    have children := mapM_inFrame_eq visits (found ++ ownFindings remediation above n)
    rw [Visitor.run_eq, findings_eq, ← List.append_assoc]
    refine visit_eq (enter_eq env standard outward) ?_
    rw [VisitM.bind_of_ok children, Visitor.settle_self]
    rfl

/-- The pass changes nothing, and finds what is privileged in the unit, each site once. -/
theorem pass_reports_privilegedSites (limits : FlowLimits) (splicer : Splicer) (remediation : String)
    (unit : CompilationUnit) (next : NodeId) :
    pass ⟨.standard, limits, splicer⟩ remediation unit next =
      (.ok { unit, findings := (((Node.unit unit).privilegedSites []).map fun (location, snippet) =>
        { remediation, location, snippet }).eraseDups }, next) := by
  have outward : [] ++ [Node.unit unit] = Node.unit unit :: [] := rfl
  let env : PassEnv := ⟨.standard, limits, splicer⟩
  have ran : ((remedy env remediation).visitor env).runTree (.unit unit) next () =
      .ok (.unit unit) ⟨reporting (.unit unit) (findings remediation [] (.unit unit)) [], next, ()⟩ :=
    run_eq env rfl outward []
  unfold pass Visitor.pass
  dsimp only
  rw [ran]
  dsimp only
  rw [if_pos rfl, takeFindings_reporting]
  rfl

end Privileged

end JavaMend
