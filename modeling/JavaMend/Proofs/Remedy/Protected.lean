import JavaMend.Proofs.Remedy.Protecting
import JavaMend.Proofs.Remedy.Success
import JavaMend.Proofs.Traversal.Positions

/-!
# Bodies are only rewritten where they are protected

Path traversal splits the texts of a body only where it also protects the body: what it makes
of a unit (`pass_treated`) is the unit with some bodies replaced. Taking the guards out of such
a body and putting the extracted locals back leaves what splitting texts alone makes of it
(`Treated`).

Such a body is replaced as a whole, with the bodies nested in it. These were visited before and
came back as they were, but texts are split in them all the same. A body that stands in no other
one and holds none comes back, or it is the body in which texts were split, with protections
(`pass_protects_alone`).
-/

namespace JavaMend.PathTraversal

variable {env : PassEnv} {settings : PathSettings} {block out : Block} {above : List Node}

/-! ## One body -/

/-- What splitting texts alone makes of a body, with ids from a supply that starts above those of
the body. -/
def SplitsInto (env : PassEnv) (settings : PathSettings) (above : List Node) (block split : Block) :
    Prop :=
  ∃ (site site' : Site Note Unit) (imports : ImportRequests),
    (∀ m ∈ (Node.block block).subtree, m.id < site.next) ∧
      runApart env
        (Normalize.remedy env (reached env settings ⟨.block block :: above⟩ fun _ => true)) ()
        ⟨.block block :: above⟩ block site = .ok (split, imports, ()) site'

/-- A body that is guarded is the body in which texts were split, with protections. -/
theorem guardPaths_sheds (standard : env.splicer = .standard) {site site' : Site Note Unit}
    (genuine : Path.GenuineList (.block block :: above))
    (body : Path.startsWithBody (.block block :: above) = true)
    (drawn : Drawn 0 site.next ((Node.block block).parts fun _ => false))
    (situated : (Node.block block).Situated settings.variableStem above)
    (older : ∀ m ∈ above, ∀ c ∈ m.children, c.id < site.next)
    (path : site.cursor.path = ⟨.block block :: above⟩)
    (ran : guardPaths env settings block site = .ok out site') :
    out = block ∨ ∃ split, SplitsInto env settings above block split ∧
      (Node.block out).Sheds (.block split) := by
  rcases ok_of_guardPaths path ran with same | ⟨split, fileImports, between, rebuilt, used, children,
    guardImports, count, after, splits, onBlock, guards, changed⟩
  · exact .inl same
  refine .inr ⟨split, ⟨site, between, fileImports, drawn.subtree.2, splits⟩, ?_⟩
  -- The body in which texts were split reads what is known around it, as the body did.
  obtain ⟨-, ⟨new, fresh, made⟩, new_id, isStatic, reads⟩ := ok_of_runApart standard genuine body rfl
    rfl (Regime.resolving_lawful drawn) Normalize.notes_resolving splits
  have reads : (Node.block block).ReadsAs (.block split) := reads
  have fit : Node.SameSort (.block block) (.block split) := rfl
  obtain ⟨above', used', replaced, around⟩ := Path.replacing_end genuine fit between.next
  cases onBlock.symm.trans (show Path.onBlock _ _ _ = _ from replaced)
  have drawn' : Drawn 0 between.next ((Node.block split).parts fun _ => false) :=
    (drawn.add fresh).of_le made
  have situated' : (Node.block split).Situated settings.variableStem above' := by
    have brought : above'.flatMap (·.bindings) = above.flatMap (·.bindings) := by
      rw [List.flatMap_def, around.bindings situated.apart rfl, ← List.flatMap_def]
    refine ⟨drawn'.coherent, ?_, ?_⟩
    · exact Path.toldApart_replacing genuine fit situated.apart older
        (new_id.imp_left (congrArg Node.block)) fresh.le replaced
    · rw [brought]
      exact reads.resolved _ _ situated.resolved
  have drawn'' := drawn'.mono (Nat.le_refl 0) ((Path.replacing_grows _ _ _).le onBlock)
  have body' : Path.startsWithBody (.block split :: above') = true := by
    rw [Path.startsWithBody_eq] at body ⊢
    simpa only [List.map_cons, around.labels, Node.label, isStatic] using body
  have lawful : (Regime.protecting settings.variableStem (newRead used) _ used).Lawful :=
    Regime.protecting_lawful drawn''
  obtain ⟨-, -, -, kept⟩ := runApart_makes (Regime.run_protects standard lawful
    Guarding.notes_protecting _ _ (Regime.stands_body rfl around.genuine body')) rfl rfl guards
  refine (kept situated').sheds.resolve_left ?_
  rintro same
  cases same
  exact Bool.false_ne_true (changed.symm.trans (beq_self_eq_true _))

/-! ## All bodies -/

/-- What the pass makes of a node below the nodes of `above`: the same node, a body with
protections, or a node that is rebuilt around bodies with protections. -/
inductive Treated (env : PassEnv) (settings : PathSettings) : List Node → Node → Node → Prop where
  | same {above : List Node} {n : Node} : Treated env settings above n n
  | body {above : List Node} {block out split : Block}
      (body : Path.startsWithBody (.block block :: above) = true)
      (splits : SplitsInto env settings above block split)
      (sheds : (Node.block out).Sheds (.block split)) :
      Treated env settings above (.block block) (.block out)
  | around {above : List Node} {n out : Node} (label : out.label = n.label)
      (length : n.children.length = out.children.length)
      (children : ∀ c c', (c, c') ∈ n.children.zip out.children →
        Treated env settings (n :: above) c c')
      (changed : out.children ≠ n.children) : Treated env settings above n out

namespace Treated

variable {n node : Node}

/-- A node in which there is no body stays as it is. -/
theorem eq_of_bodiless (h : Treated env settings above n node)
    (genuine : Path.GenuineList (n :: above)) (bodiless : ∀ front, Path.GenuineList (front ++ n :: above) →
      Path.startsWithBody (front ++ n :: above) = false) : node = n := by
  induction h with
  | same => rfl
  | body body => exact absurd body (Bool.eq_false_iff.mp (bodiless [] genuine))
  | @around above n out label length _ changed ih =>
    refine (changed ?_).elim
    have same : List.Forall₂ (· = ·) n.children out.children := by
      refine List.forall₂_iff_zip.mpr ⟨length, fun {c c'} mem => (ih c c' mem ?_ ?_).symm⟩
      · exact ⟨(List.of_mem_zip mem).1, genuine⟩
      · intro front below
        rw [List.append_cons] at below ⊢
        exact bodiless _ below
    exact (List.forall₂_eq_eq_eq ▸ same : n.children = out.children).symm

/-- A body in which there is no other one comes back, or it is protected. -/
theorem of_innermost (h : Treated env settings above (.block block) node)
    (genuine : Path.GenuineList (.block block :: above))
    (innermost : ∀ front m, Path.GenuineList (front ++ m :: .block block :: above) →
      Path.startsWithBody (front ++ m :: .block block :: above) = false) :
    node = .block block ∨ ∃ out split, node = .block out ∧
      SplitsInto env settings above block split ∧ (Node.block out).Sheds (.block split) := by
  cases h with
  | same => exact .inl rfl
  | @body _ _ out split _ splits sheds => exact .inr ⟨out, split, rfl, splits, sheds⟩
  | around label length children changed =>
    refine (changed ?_).elim
    have same : List.Forall₂ (· = ·) (Node.block block).children node.children := by
      refine List.forall₂_iff_zip.mpr ⟨length, fun {c c'} mem => ?_⟩
      exact ((children c c' mem).eq_of_bodiless ⟨(List.of_mem_zip mem).1, genuine⟩
        fun front below => innermost front c below).symm
    exact (List.forall₂_eq_eq_eq ▸ same : (Node.block block).children = node.children).symm

/-- What becomes of a block at a position, if no body is on the way to it or below it. -/
theorem at_place {place : List Nat} {up : List Node} (h : Treated env settings above n node)
    (there : n.at? place = some (.block block))
    (way : (n.way place).reverse ++ above = .block block :: up)
    (genuine : Path.GenuineList (n :: above))
    (outer : ∀ upper m, n.at? upper = some m → upper <+: place →
      Path.startsWithBody ((n.way upper).reverse ++ above) = true → upper = place)
    (innermost : ∀ front m, Path.GenuineList (front ++ m :: .block block :: up) →
      Path.startsWithBody (front ++ m :: .block block :: up) = false) :
    ∃ node', node.at? place = some node' ∧
      (node' = .block block ∨ ∃ out split, node' = .block out ∧
        SplitsInto env settings up block split ∧ (Node.block out).Sheds (.block split)) := by
  induction place generalizing n node above with
  | nil =>
    cases there
    cases way
    exact ⟨node, rfl, h.of_innermost genuine innermost⟩
  | cons i place ih =>
    obtain ⟨c, child, below⟩ := Option.bind_eq_some_iff.mp there
    have way_cons (rest : List Nat) :
        (n.way (i :: rest)).reverse ++ above = (c.way rest).reverse ++ n :: above := by
      rw [Node.way, child, Option.toList_some, List.flatMap_singleton, List.reverse_cons,
        List.append_assoc]
      rfl
    cases h with
    | same => exact ⟨.block block, there, .inl rfl⟩
    | body body => cases outer [] _ rfl List.nil_prefix body
    | around label length children changed =>
      have inside := (List.getElem?_eq_some_iff.mp child).1
      obtain ⟨c', child'⟩ : ∃ c', node.children[i]? = some c' :=
        ⟨_, List.getElem?_eq_getElem (length ▸ inside)⟩
      have both : (c, c') ∈ n.children.zip node.children :=
        List.mem_of_getElem? (List.getElem?_zip_eq_some.mpr ⟨child, child'⟩)
      have outer' : ∀ upper m, c.at? upper = some m → upper <+: place →
          Path.startsWithBody ((c.way upper).reverse ++ n :: above) = true → upper = place := by
        intro upper m at_ isPrefix starts
        have at_ : n.at? (i :: upper) = some m := by rw [Node.at?, child, Option.bind_some, at_]
        have whole := outer (i :: upper) m at_ (List.cons_prefix_cons.mpr ⟨rfl, isPrefix⟩)
          (way_cons upper ▸ starts)
        exact (List.cons.inj whole).2
      obtain ⟨node', there', outcome⟩ := ih (children c c' both) below (way_cons place ▸ way)
        ⟨List.mem_of_getElem? child, genuine⟩ outer'
      exact ⟨node', by rw [Node.at?, child', Option.bind_some, there'], outcome⟩

end Treated

/-- A block at a position is the body of a method or an initializer, and there is no other one on
the way to it or below it. -/
structure StandsAlone (root : Node) (place : List Nat) (block : Block) : Prop where
  there : root.at? place = some (.block block)
  body : Path.startsWithBody (root.way place).reverse = true
  alone : ∀ other n, root.at? other = some n →
    Path.startsWithBody (root.way other).reverse = true →
      other <+: place ∨ place <+: other → other = place

/-- A body that stands alone comes back, or it is protected. -/
theorem Treated.of_alone {root node : Node} {place : List Nat}
    (h : Treated env settings [] root node) (stands : StandsAlone root place block) :
    ∃ node', node.at? place = some node' ∧
      (node' = .block block ∨ ∃ out split, node' = .block out ∧
        SplitsInto env settings (root.way place).reverse.tail block split ∧
          (Node.block out).Sheds (.block split)) := by
  obtain ⟨front, ends⟩ := Node.way_ends stands.there
  have way : (root.way place).reverse = .block block :: front.reverse := by
    rw [ends, List.reverse_append]
    rfl
  rw [way, List.tail_cons]
  refine h.at_place stands.there ((List.append_nil _).trans way) trivial ?_ ?_
  · intro upper m at_ isPrefix starts
    exact stands.alone upper m at_ (List.append_nil (root.way upper).reverse ▸ starts) (.inl isPrefix)
  · intro between m genuine
    -- The nodes below the block, with the lowest one split off.
    obtain ⟨k, rest, split⟩ : ∃ k rest, between ++ m :: .block block :: front.reverse =
        k :: rest ++ .block block :: front.reverse := by
      cases between with
      | nil => exact ⟨m, [], rfl⟩
      | cons k between => exact ⟨k, between ++ [m], by simp⟩
    rw [split] at genuine ⊢
    obtain ⟨further, proper, at_, on⟩ := Node.exists_place stands.there way genuine
    refine Bool.eq_false_iff.mpr fun starts => proper ?_
    have same := stands.alone _ k at_ (on ▸ starts) (.inr (List.prefix_append place further))
    exact List.append_right_eq_self.mp same

/-- A body is treated after the bodies in it, and only if these stay as they are. -/
theorem ok_of_treatBody {descend : PassM Unit Node} {node : Node} {site site' : Site Note Unit}
    (off : settings.fixPartialPath = false)
    (ran : treatBody env settings block descend site = .ok node site') :
    ∃ walked between, descend site = .ok walked between ∧
      (node = walked ∨ walked.same (.block block) = true ∧
        ∃ out, guardPaths env settings block between = .ok out site' ∧ node = .block out) := by
  unfold treatBody at ran
  rw [off] at ran
  have back : (!block.same block) = false := by
    rw [show block.same block = true from beq_self_eq_true _]
    rfl
  simp only [Bool.false_eq_true, if_false, pure_bind, back] at ran
  obtain ⟨walked, between, ran₁, ran⟩ := VisitM.ok_of_bind ran
  refine ⟨walked, between, ran₁, ?_⟩
  split at ran
  next same =>
    obtain ⟨out, after, guarded, ran⟩ := VisitM.ok_of_bind ran
    cases ran
    exact .inr ⟨same, out, guarded, rfl⟩
  next =>
    cases ran
    exact .inl rfl

/-- What the visit keeps to: a node is treated if it reads what is known around it, in a tree that
is older than the visit. -/
def TreatedFrom (env : PassEnv) (settings : PathSettings) (mark : NodeId)
    (above : List Node) (n out : Node) : Prop :=
  n.Situated settings.variableStem above → (∀ m ∈ n :: above, ∀ c ∈ m.subtree, c.id < mark) →
    Treated env settings above n out

theorem treated_descends {mark : NodeId} : Regime.Descends (TreatedFrom env settings mark) where
  self _ _ _ _ := .same
  refilled above n out news refilled changed children situated older := by
    obtain ⟨length, each⟩ := List.forall₂_iff_zip.mp children
    rw [← refilled.children] at length changed
    refine .around refilled.label length (fun c c' mem => ?_) changed
    have child : c ∈ n.children := (List.of_mem_zip mem).1
    rw [refilled.children] at mem
    refine each mem (situated.child child) (List.forall_mem_cons.mpr ⟨fun m inside => ?_, older⟩)
    exact older n List.mem_cons_self m (Node.mem_subtree_of_child child inside)

section

variable {tree : Multiset Node} {mark : NodeId} (standard : env.splicer = .standard)
  (off : settings.fixPartialPath = false) (drawn : Drawn 0 mark tree)
include standard off drawn

/-- A body is treated, if what the descent makes of it is. -/
theorem treatBody_treats {descend : PassM Unit Node}
    (stands : (Regime.accounting (newRead mark) tree mark).Stands (.block block) above)
    (body : Path.startsWithBody (.block block :: above) = true)
    (walks : (Regime.accounting (newRead mark) tree mark).Makes (.block block :: above) (.block block)
      (fun out => (Regime.accounting (newRead mark) tree mark).Walked above (.block block) out ∧
        TreatedFrom env settings mark above (.block block) out) descend) :
    (Regime.accounting (newRead mark) tree mark).Makes (.block block :: above) (.block block)
      (fun out => (Regime.accounting (newRead mark) tree mark).Became above (.block block) out ∧
        TreatedFrom env settings mark above (.block block) out)
      (treatBody env settings block descend) := by
  intro rest site out site' holds ran
  obtain ⟨became, holds'⟩ := treatBody_makes standard (Regime.accounting_lawful drawn)
    (treats_accounting env settings) rfl stands body
    (fun rest => (walks rest).mono (fun _ h => h) fun _ _ done => ⟨done.1.1, done.2⟩) rest holds ran
  refine ⟨⟨became, fun situated older => ?_⟩, holds'⟩
  obtain ⟨node, between, ran₁, rfl | ⟨same, guarded, guards, rfl⟩⟩ := ok_of_treatBody off ran
  · exact (walks rest holds ran₁).1.2 situated older
  · have still := (walks rest holds ran₁).2
    have from_ : mark ≤ between.next := still.owns.le
    have drawn' := (drawn.of_le stands.parts).mono (Nat.le_refl 0) from_
    have older' : ∀ m ∈ above, ∀ c ∈ m.children, c.id < between.next := fun m mem c child =>
      Nat.lt_of_lt_of_le (older m (List.mem_cons_of_mem _ mem) c
        (Node.mem_subtree_of_child child Node.mem_subtree_self)) from_
    rcases guardPaths_sheds standard stands.genuine body drawn' situated older' still.outward guards
      with rfl | ⟨split, splits, sheds⟩
    · exact .same
    · exact .body body splits sheds

/-- Every node is treated. -/
theorem visitor_treats (n : Node) (above : List Node)
    (stands : (Regime.accounting (newRead mark) tree mark).Stands n above) :
    (Regime.accounting (newRead mark) tree mark).Makes (n :: above) n
      (fun out => (Regime.accounting (newRead mark) tree mark).Became above n out ∧
        TreatedFrom env settings mark above n out) ((visitor env settings).run n) := by
  refine Regime.run_relates (Regime.accounting_lawful drawn) treated_descends
    (fun n above descend stands walks rest => ?_) n above stands
  have descends : VisitM.Triple
      ((Regime.accounting (newRead mark) tree mark).Holds (n :: above)
        (n.parts (newRead mark) + rest)) descend fun out site =>
      ((Regime.accounting (newRead mark) tree mark).Became above n out ∧
        TreatedFrom env settings mark above n out) ∧
        (Regime.accounting (newRead mark) tree mark).Holds (n :: above)
          (out.parts (newRead mark) + rest) site :=
    (walks rest).mono (fun _ h => h) fun _ _ done => ⟨⟨done.1.1.became, done.1.2⟩, done.2⟩
  unfold visitor
  dsimp only
  split
  next block =>
    refine Regime.path_holds.bind fun path => .assuming ?_
    rintro rfl
    split
    next ends =>
      exact treatBody_treats standard off drawn stands (startsWithBody_of_endsAtBody ends) walks rest
    next => exact descends
  next => exact descends

end

/-- Path traversal succeeds, and rewrites bodies only where it protects them, if around each block
it is known what the block reads under names like those of extracted locals. -/
theorem pass_treated (standard : env.splicer = .standard)
    (message : ¬ Template.opening <:+: settings.guardMessage.toList) (off : settings.fixPartialPath = false)
    {unit : CompilationUnit} {next : NodeId}
    (distinct : ((Node.unit unit).subtree.map Node.id).Nodup)
    (old : ∀ n ∈ (Node.unit unit).subtree, n.id < next)
    (resolved : (Node.unit unit).Resolved settings.variableStem []) :
    ∃ out used, pass env settings unit next = (.ok out, used) ∧
      ∃ changed : CompilationUnit, out.unit.classes = changed.classes ∧
        Treated env settings [] (.unit unit) (.unit changed) := by
  have drawn := Drawn.of_distinct distinct old
  obtain ⟨out, used, ran⟩ := Visitor.pass_succeeds (visitor_succeeds standard message) () unit next
  have tree : (Node.unit unit).parts (fun _ => false) =
      (Regime.accounting (newRead next) ((Node.unit unit).parts fun _ => false) next).tree := rfl
  obtain ⟨-, changed, ⟨-, treated⟩, classes⟩ := Regime.pass_makes
    (visitor_treats standard off drawn _ _ (Regime.stands_root tree)) tree ran
  refine ⟨out, used, ran, changed, classes, treated ⟨drawn.coherent, trivial, resolved⟩ ?_⟩
  exact List.forall_mem_singleton.mpr old

/-- Path traversal succeeds, and a body that stands alone in the unit comes back as it was, or as
what splitting texts makes of it, with protections. -/
theorem pass_protects_alone (standard : env.splicer = .standard)
    (message : ¬ Template.opening <:+: settings.guardMessage.toList) (off : settings.fixPartialPath = false)
    {unit : CompilationUnit} {next : NodeId}
    (distinct : ((Node.unit unit).subtree.map Node.id).Nodup)
    (old : ∀ n ∈ (Node.unit unit).subtree, n.id < next)
    (resolved : (Node.unit unit).Resolved settings.variableStem []) :
    ∃ out used, pass env settings unit next = (.ok out, used) ∧
      ∀ place block, StandsAlone (.unit unit) place block →
        ∃ node, (Node.unit out.unit).at? place = some node ∧
          (node = .block block ∨ ∃ made split, node = .block made ∧
            SplitsInto env settings ((Node.unit unit).way place).reverse.tail block split ∧
              (Node.block made).Sheds (.block split)) := by
  obtain ⟨out, used, ran, changed, classes, treated⟩ :=
    pass_treated standard message off distinct old resolved
  refine ⟨out, used, ran, fun place block stands => ?_⟩
  obtain ⟨node, there, outcome⟩ := treated.of_alone stands
  refine ⟨node, ?_, outcome⟩
  cases place with
  | nil => cases stands.there
  | cons i place =>
    have children : (Node.unit out.unit).children = (Node.unit changed).children :=
      congrArg (List.map Node.cls) classes
    rw [← there, Node.at?, Node.at?, children]

/-- A method with one body: `File f = new File(dir, entry.getName()); new FileOutputStream(f);` -/
theorem pass_protects_alone_file :
    let ident (id : NodeId) (ty : Ty) (name : String) : Expr := ⟨id, ty, .ident name none⟩
    let name : Expr := ⟨9, .string,
      .call (some (ident 10 (.known Fqn.zipEntry) "entry")) "getName" [] (some Jdk.zipEntryGetName)⟩
    let file : Expr :=
      ⟨7, .file, .create "File" [ident 8 .file "dir", name] (some Jdk.fileOfParentAndChild)⟩
    let stream : Expr := ⟨12, .known Fqn.fileOutputStream,
      .create "FileOutputStream" [ident 13 .file "f"] (some Jdk.fileOutputStreamOfFile)⟩
    let body : Block := ⟨4, false, [⟨5, .declare ⟨[], "File", [⟨6, "f", .file, some file⟩]⟩⟩,
      ⟨11, .expr stream⟩]⟩
    let method : Stmt := ⟨3, .method ⟨[], some "void", "m",
      [.ofType .file "dir", .ofType (.known Fqn.zipEntry) "entry"], []⟩ (some body)⟩
    let unit : CompilationUnit := ⟨0, none, [], [⟨1, ⟨[], "A", .known "A"⟩, ⟨2, false, [method]⟩⟩]⟩
    let env : PassEnv := ⟨.standard, ⟨64, 8⟩, .standard⟩
    let settings : PathSettings :=
      ⟨signatures ["java.util.zip.ZipEntry getName()"], "zipEntry", false, badZipEntry⟩
    ∃ out used, pass env settings unit 14 = (.ok out, used) ∧
      (Node.unit out.unit).alike (.unit unit) = false ∧
      StandsAlone (.unit unit) [0, 0, 0, 0] body ∧
      ∃ node, (Node.unit out.unit).at? [0, 0, 0, 0] = some node ∧
        (node = .block body ∨ ∃ made split, node = .block made ∧
          SplitsInto env settings ((Node.unit unit).way [0, 0, 0, 0]).reverse.tail body split ∧
            (Node.block made).Sheds (.block split)) := by
  intro ident name file stream body method unit env settings
  have short : ∀ x ∈ (Node.unit unit).localReads, x.length < settings.variableStem.length := by
    decide +kernel
  have changes : (pass env settings unit 14).1.toOption.map
      (fun out => (Node.unit out.unit).alike (.unit unit)) = some false := by decide +kernel
  have resolved : (Node.unit unit).Resolved settings.variableStem [] := by
    refine .of_unread ?_
    rintro x mem ending rfl
    have here := short _ mem
    rw [String.length_append] at here
    exact absurd here (Nat.not_lt_of_le (Nat.le_add_right _ _))
  have distinct : ((Node.unit unit).subtree.map Node.id).Nodup := by decide +kernel
  have alone : StandsAlone (.unit unit) [0, 0, 0, 0] body := by
    refine ⟨rfl, rfl, fun other n there starts _ => ?_⟩
    have apart : (Node.unit unit).subtree.Pairwise fun a b => a.same b = false := by decide +kernel
    -- Only the body of the class is a block as well.
    have blocks : ∀ m ∈ (Node.unit unit).subtree, m.kind = .block → m.id = 4 ∨ m.id = 2 := by
      decide +kernel
    cases n with
    | block b =>
      rcases blocks _ (Node.mem_subtree_of_at? there) rfl with id | id
      · exact Node.at?_unique apart there rfl (beq_iff_eq.mpr id)
      · have place : other = [0, 0] := Node.at?_unique apart there rfl (beq_iff_eq.mpr id)
        rw [place] at starts
        exact absurd starts Bool.false_ne_true
    | _ =>
      obtain ⟨front, ends⟩ := Node.way_ends there
      rw [ends, List.reverse_append] at starts
      cases starts
  obtain ⟨out, used, ran, protects⟩ := pass_protects_alone (rfl : env.splicer = .standard)
    plain_badZipEntry (rfl : settings.fixPartialPath = false) distinct
    (by decide +kernel : ∀ n ∈ (Node.unit unit).subtree, n.id < 14) resolved
  rw [ran] at changes
  exact ⟨out, used, ran, Option.some.inj changes, alone, protects _ _ alone⟩

end JavaMend.PathTraversal
