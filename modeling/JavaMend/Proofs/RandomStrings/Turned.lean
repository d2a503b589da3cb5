import JavaMend.Proofs.RandomStrings.Classes
import JavaMend.Proofs.Remedy.Made

/-!
# What the pass for random strings makes of a tree

`RandomString.Turned` relates a node to what the pass makes of it. Calls give way, and the
body of a class that gets a generator gets its new members, in front of the others and
behind them, and loses its old length. Everything else keeps its label, and is rebuilt only
if something in it gives way.

A second look at the output finds nothing to do: whatever draws in it stands in a class that
has a generator (`RandomString.Turned.not_acts`).
-/

namespace JavaMend

namespace Rewriting

variable {γ : Type} {R : Rewriting γ} {mark : NodeId} {acted : Prop} {waits : NodeId → Prop} {p : γ}
  {n out : Node}

/-- What does not change is underway if nothing in it gives way. -/
theorem Underway.self_of_not_acts (stays : ∀ p s, R.drops p s = false) (nothing : ¬ R.Acts p n) :
    R.Underway mark acted waits p n n := by
  induction n using Node.inductionOn generalizing p waits with
  | step n ih =>
    have kept (p : γ) : R.kept p n = n.children := by
      cases n with
      | block b =>
        show (b.stmts.filter (!R.drops (R.inside p (.block b)) ·)).map Node.stmt = _
        rw [funext (stays (R.inside p (.block b)))]
        exact congrArg (List.map Node.stmt) (List.filter_true b.stmts)
      | _ => rfl
    have other : R.isGiven p n = false := by
      by_contra given
      exact nothing (.here (Bool.not_eq_false _ ▸ given))
    refine .around other rfl (.inl rfl) ?_
    rw [kept]
    exact List.forall₂_same.mpr fun c hc => ih c hc fun acts => nothing (.under (kept p ▸ hc) acts)

/-- Where nothing gives way, nothing changes. -/
theorem Underway.eq_of_not_acts (h : R.Underway mark acted waits p n out) (nothing : ¬ R.Acts p n) :
    out = n :=
  h.new.resolve_right fun changed => nothing changed.2

end Rewriting

namespace RandomString

/-! ## New members -/

/-- The type of the class whose body the block is, if the class gets a generator. -/
def newOwner? (above : List Node) (b : Block) : Option Ty :=
  if lacksGenerator b then (⟨.block b :: above⟩ : Path).bodyOwner? else none

/-- What comes before and behind the statements of a block: the new members of a class that
gets a generator, else nothing. -/
def Members (mark : NodeId) (above : List Node) (b : Block) (front back : List Stmt) : Prop :=
  match newOwner? above b with
  | none => front = [] ∧ back = []
  | some owner => (∃ next, mark ≤ next ∧ front = (mkHead owner next).1) ∧
      ∃ next, mark ≤ next ∧ back = [(mkMethod owner (utilsFor (drawsOf b)) next).1]

/-- Is the statement the old length of a class that gets a generator? -/
def drops (above : List Node) (b : Block) (s : Stmt) : Bool :=
  (newOwner? above b).isSome && (loneField? b lengthField).any (·.id == s.id)

section

variable {mark : NodeId} {above : List Node} {b : Block} {front back : List Stmt} {owner : Ty}

theorem newOwner?_isSome (h : (newOwner? above b).isSome = true) :
    lacksGenerator b = true ∧ ∃ parent up c, above = parent :: up ∧ parent.class? = some c := by
  unfold newOwner? at h
  split at h
  next lacks =>
    refine ⟨lacks, ?_⟩
    unfold Path.bodyOwner? Path.parent? at h
    cases above with
    | nil => cases h
    | cons parent up =>
      rw [Option.isSome_map] at h
      obtain ⟨c, isClass⟩ := Option.isSome_iff_exists.mp h
      exact ⟨parent, up, c, rfl, isClass⟩
  next => cases h

/-- Only the body of a class gets members. -/
theorem newOwner?_of_noClass (noBody : ∀ parent up, above = parent :: up → parent.class? = none) :
    newOwner? above b = none := by
  by_contra some
  obtain ⟨-, parent, up, c, at_, isClass⟩ := newOwner?_isSome (Option.isSome_iff_ne_none.mpr some)
  cases (noBody parent up at_).symm.trans isClass

/-- There are no classes in new members. -/
theorem Members.noClass (h : Members mark above b front back) {s : Stmt} (mem : s ∈ front ++ back) :
    (Node.stmt s).All fun m => m.class? = none := by
  unfold Members at h
  split at h
  next =>
    obtain ⟨rfl, rfl⟩ := h
    cases mem
  next owner _ =>
    obtain ⟨⟨next, -, rfl⟩, next', -, rfl⟩ := h
    have plain {s : Stmt} (sound : s.Sound fun _ => True) : (Node.stmt s).All fun m => m.class? = none :=
      sound.imp fun m h => h.noClass
    rcases List.mem_append.mp mem with mem | mem
    · exact plain (mkHead_sound owner trivial next s mem)
    · cases List.mem_singleton.mp mem
      exact plain (mkMethod_sound owner trivial next')

end

/-! ## The output -/

/-- Below the nodes `above`, the pass makes `out` of `n`. What is made is new, from `mark` on. -/
inductive Turned (mark : NodeId) : List Node → Node → Node → Prop where
  | given {above : List Node} {e new : Expr} (gives : turning.gives (turning.place above) e = true)
      (made : Makes new) (late : mark ≤ new.id) : Turned mark above (.expr e) (.expr new)
  | around {above : List Node} {n out : Node} (open_ : n.block? = none)
      (other : turning.isGiven (turning.place above) n = false) (label : out.label = n.label)
      (new : out = n ∨ mark ≤ out.id ∧ turning.Acts (turning.place above) n)
      (length : n.children.length = out.children.length)
      (children : ∀ c c', (c, c') ∈ n.children.zip out.children → Turned mark (n :: above) c c') :
      Turned mark above n out
  | block {above : List Node} {b out : Block} {front back : List Stmt} {pairs : List (Stmt × Stmt)}
      (isStatic : out.isStatic = b.isStatic)
      (new : out = b ∨ mark ≤ out.id ∧ turning.Acts (turning.place above) (.block b))
      (members : Members mark above b front back)
      (before : pairs.map (·.1) = b.stmts.filter (!drops above b ·))
      (after : out.stmts = front ++ pairs.map (·.2) ++ back)
      (stmts : ∀ p ∈ pairs, Turned mark (.block b :: above) (.stmt p.1) (.stmt p.2)) :
      Turned mark above (.block b) (.block out)

variable {mark : NodeId} {above : List Node} {n out : Node} {p : Option (ClassHead × Block)}
  {e : Expr} {b b' : Block}

namespace Turned

theorem new (h : Turned mark above n out) :
    out = n ∨ mark ≤ out.id ∧ turning.Acts (turning.place above) n := by
  cases h with
  | given gives _ late => exact .inr ⟨late, .here gives⟩
  | around _ _ _ new => exact new
  | block _ new => exact new.imp_left (congrArg Node.block)

/-- Where nothing gives way, nothing changes. -/
theorem eq_of_not_acts (h : Turned mark above n out)
    (nothing : ¬ turning.Acts (turning.place above) n) : out = n :=
  h.new.resolve_right fun changed => nothing changed.2

/-- What is no expression and no block keeps its label. -/
theorem label (h : Turned mark above n out) (plain : n.expr? = none) (open_ : n.block? = none) :
    out.label = n.label := by
  cases h with
  | given => cases plain
  | around _ _ label => exact label
  | block => cases open_

/-- The children of what is no expression and no block. -/
theorem children (h : Turned mark above n out) (plain : n.expr? = none) (open_ : n.block? = none) :
    List.Forall₂ (Turned mark (n :: above)) n.children out.children := by
  cases h with
  | given => cases plain
  | around _ _ _ _ length children =>
    exact List.forall₂_iff_zip.mpr ⟨length, fun {c c'} => children c c'⟩
  | block => cases open_

/-- A declaration keeps its names. -/
theorem declaredNames {s s' : Stmt} (h : Turned mark above (.stmt s) (.stmt s')) :
    s'.declaredNames = s.declaredNames := by
  have label : s'.form.blank = s.form.blank := Node.Label.stmt.inj (h.label rfl rfl)
  have children := h.children rfl rfl
  obtain ⟨id, form⟩ := s
  obtain ⟨id', form'⟩ := s'
  cases form with
  | declare decl =>
    cases form' with
    | declare decl' =>
      have vars : List.Forall₂ (Turned mark (.stmt ⟨id, .declare decl⟩ :: above)) (decl.vars.map Node.var)
        (decl'.vars.map Node.var) := children
      rw [List.forall₂_map_left_iff, List.forall₂_map_right_iff] at vars
      have names : List.Forall₂ (fun v v' : Variable => v'.name = v.name) decl.vars decl'.vars :=
        vars.imp fun v v' h => (Node.Label.var.inj (h.label rfl rfl)).1
      show decl'.vars.map (·.name) = decl.vars.map (·.name)
      refine List.ext_getElem (by simp [names.length_eq]) fun i hi hi' => ?_
      rw [List.length_map] at hi hi'
      rw [List.getElem_map, List.getElem_map]
      exact (List.forall₂_iff_get.mp names).2 i hi' hi
    | _ => cases label
  | _ => cases form' <;> first | rfl | cases label

end Turned

/-! ## Generators -/

theorem loneField?_eq (body : Block) (name : String) :
    loneField? body name = body.stmts.find? (·.declaredNames == [name]) := by
  unfold loneField?
  congr 1
  funext s
  obtain ⟨id, form⟩ := s
  cases form with
  | declare decl =>
    obtain ⟨modifiers, typeName, vars⟩ := decl
    cases vars with
    | nil => rfl
    | cons v rest =>
      cases rest with
      | nil =>
        show (v.name == name) = ([v.name] == [name])
        simp
      | cons =>
        refine (beq_eq_false_iff_ne.mpr fun same => ?_).symm
        cases same
  | _ => rfl

theorem isDone_iff {body : Block} :
    isDone body = true ↔ ∃ s ∈ body.stmts, s.declaredNames = [generatorField] := by
  unfold isDone
  rw [loneField?_eq, List.find?_isSome]
  simp

/-- The body of a class has a generator if it had one or gets one. -/
theorem Turned.done (h : Turned mark above (.block b) (.block b'))
    (generator : isDone b = true ∨ (newOwner? above b).isSome = true) :
    isDone b' = true := by
  cases h with
  | around open_ => cases open_
  | block _ _ members before after stmts =>
    rw [isDone_iff, after]
    rcases generator with done | some
    · have stays : newOwner? above b = none := by
        by_contra some
        have lacks := (newOwner?_isSome (Option.isSome_iff_ne_none.mpr some)).1
        unfold lacksGenerator at lacks
        rw [done] at lacks
        cases lacks
      obtain ⟨s, mem, names⟩ := isDone_iff.mp done
      have kept : s ∈ b.stmts.filter (!drops above b ·) := by
        refine List.mem_filter.mpr ⟨mem, ?_⟩
        unfold drops
        rw [stays]
        rfl
      rw [← before] at kept
      obtain ⟨q, hq, rfl⟩ := List.mem_map.mp kept
      refine ⟨q.2, ?_, (stmts q hq).declaredNames.trans names⟩
      exact List.mem_append_left _ (List.mem_append_right _ (List.mem_map_of_mem hq))
    · obtain ⟨owner, at_⟩ := Option.isSome_iff_exists.mp some
      unfold Members at members
      rw [at_] at members
      obtain ⟨⟨next, -, rfl⟩, -⟩ := members
      exact ⟨_, List.mem_append_left _ (List.mem_append_left _ List.mem_cons_self), rfl⟩

/-! ## Nothing gives way twice -/

theorem draws_of_makes {new : Expr} (made : Makes new) : draws new = false := by
  obtain ⟨owner, next, rfl⟩ := made
  have isMethod : (Expr.mkLocalCall (.static owner methodName [] .string) [] next).1.method? =
      some (.static owner methodName [] .string) := rfl
  refine draws_of_name isMethod ?_
  have refused : drawing.all fun s =>
      !Signature.NamePattern.accepts s.name (.static .unknown methodName [] .string) := by
    decide +kernel
  refine List.all_eq_true.mpr fun s mem => ?_
  rw [← List.all_eq_true.mp refused s mem]
  cases s.name <;> rfl

theorem children_of_makes {new : Expr} (made : Makes new) : (Node.expr new).children = [] := by
  obtain ⟨owner, next, rfl⟩ := made
  rfl

/-- Where there are no classes, something gives way only if the class around it has no
generator. -/
theorem undone_of_acts (noClass : n.All fun m => m.class? = none) (acts : turning.Acts p n) :
    ∃ c, p = some c ∧ isDone c.2 = false := by
  induction acts with
  | @here p n given =>
    cases n with
    | expr e => exact (gives_iff.mp given).2
    | _ => cases given
  | @under p n c mem _ ih =>
    rw [kept_eq] at mem
    obtain ⟨c', at_, undone⟩ := ih (noClass.child mem)
    rw [inside_of_noClass noClass.self] at at_
    exact ⟨c', at_, undone⟩

theorem class?_eq_none_of_label (label : out.label = n.label) (noClass : n.class? = none) :
    out.class? = none := by
  cases isClass : out.class? with
  | none => rfl
  | some c =>
    obtain ⟨body, was⟩ := Node.class?_of_label label.symm isClass
    cases was.symm.trans noClass

/-- Is the class at the second place without a generator, so is the one at the first. -/
def Lags (p p' : Option (ClassHead × Block)) : Prop :=
  ∀ c', p' = some c' → isDone c'.2 = false → ∃ c, p = some c ∧ isDone c.2 = false

/-- The place inside of what became of a class lags behind the place inside of the class. -/
theorem Turned.lags {head head' : ClassHead} (h : Turned mark above (.block b) (.block b')) :
    Lags (some (head, b)) (some (head', b')) := by
  rintro _ ⟨⟩ undone
  refine ⟨_, rfl, ?_⟩
  by_contra done
  cases (h.done (.inl (Bool.not_eq_false _ ▸ done))).symm.trans undone

/-- In what the pass has made nothing gives way any more, whatever the class around it is, if
it has a generator wherever the class that was there had one or got one. -/
theorem Turned.not_acts (h : Turned mark above n out) (around : Lags (turning.place above) p)
    (body : ∀ b, n = .block b → (newOwner? above b).isSome = true →
      ∀ c', p = some c' → isDone c'.2 = true) : ¬ turning.Acts p out := by
  induction h generalizing p with
  | given _ made =>
    intro acts
    cases acts with
    | here given =>
      have draws := (gives_iff.mp given).1
      rw [draws_of_makes made] at draws
      cases draws
    | under mem =>
      rw [kept_eq, children_of_makes made] at mem
      cases mem
  | @around above n out open_ other label _ length children ih =>
    intro acts
    cases acts with
    | here given =>
      cases out with
      | expr e' =>
        cases n with
        | expr e =>
          obtain ⟨draws', c', at_, undone⟩ := gives_iff.mp given
          have gives : turning.gives (turning.place above) e = true :=
            gives_iff.mpr ⟨(draws_of_label label).symm.trans draws', around c' at_ undone⟩
          cases gives.symm.trans other
        | _ => cases label
      | _ => cases given
    | @under _ _ c' mem inner =>
      rw [kept_eq] at mem
      obtain ⟨c, pair⟩ : ∃ c, (c, c') ∈ n.children.zip out.children := by
        obtain ⟨i, hi, rfl⟩ := List.mem_iff_getElem.mp mem
        exact ⟨n.children[i], List.mem_iff_getElem.mpr ⟨i, by simpa using ⟨length ▸ hi, hi⟩, by simp⟩⟩
      cases isClass : n.class? with
      | none =>
        have noClass := class?_eq_none_of_label label isClass
        rw [inside_of_noClass noClass] at inner
        refine ih _ _ pair ?_ (fun b at_ some => ?_) inner
        · show Lags (turning.inside (turning.place above) n) p
          rw [inside_of_noClass isClass]
          exact around
        · obtain ⟨-, parent, up, owner, split, isOwner⟩ := newOwner?_isSome some
          cases split
          cases isOwner.symm.trans isClass
      | some owner =>
        obtain ⟨head, b⟩ := owner
        obtain ⟨b', isClass'⟩ := Node.class?_of_label label isClass
        rw [inside_of_class isClass'] at inner
        rw [Node.children_of_class isClass, Node.children_of_class isClass'] at pair
        cases List.mem_singleton.mp pair
        have turned := children (.block b) (.block b')
          (by rw [Node.children_of_class isClass, Node.children_of_class isClass']; exact pair)
        refine ih _ _ (by rw [Node.children_of_class isClass, Node.children_of_class isClass']; exact pair)
          ?_ ?_ inner
        · show Lags (turning.inside (turning.place above) n) _
          rw [inside_of_class isClass]
          exact turned.lags
        · rintro _ ⟨⟩ some _ ⟨⟩
          exact turned.done (.inr some)
  | @block above b out front back pairs _ _ members before after stmts ih =>
    intro acts
    cases acts with
    | here given => cases given
    | @under _ _ c mem inner =>
      rw [kept_eq] at mem
      obtain ⟨s, inside, rfl⟩ := List.mem_map.mp mem
      rw [inside_of_noClass rfl] at inner
      rw [after, List.append_assoc, List.mem_append, List.mem_append] at inside
      have outer (new : s ∈ front ++ back) : False := by
        obtain ⟨c', at_, undone⟩ := undone_of_acts (members.noClass new) inner
        have done : isDone c'.2 = true := by
          refine body b rfl ?_ c' at_
          by_contra none
          unfold Members at members
          rw [Bool.not_eq_true, Option.isSome_eq_false_iff, Option.isNone_iff_eq_none] at none
          rw [none] at members
          obtain ⟨rfl, rfl⟩ := members
          cases new
        cases done.symm.trans undone
      rcases inside with first | mid | last
      · exact outer (List.mem_append_left _ first)
      · obtain ⟨q, hq, rfl⟩ := List.mem_map.mp mid
        refine ih q hq ?_ (fun b at_ => nomatch at_) inner
        show Lags (turning.inside (turning.place above) (.block b)) p
        rw [inside_of_noClass rfl]
        exact around
      · exact outer (List.mem_append_right _ last)

/-- Below something that is no class, a turned block is at rest. -/
theorem Turned.rests (h : Turned mark above (.block b) (.block b'))
    (noBody : ∀ parent up, above = parent :: up → parent.class? = none) :
    ¬ turning.Acts (turning.place above) (.block b') := by
  refine h.not_acts (fun c at_ undone => ⟨c, at_, undone⟩) fun b₀ at_ some => ?_
  cases at_
  rw [newOwner?_of_noClass noBody] at some
  cases some

end RandomString

end JavaMend
