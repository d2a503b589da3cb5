import JavaMend.Proofs.Patch.Replaced
import JavaMend.Proofs.Traversal.Surface

/-!
# Rewriting trees

A `Rewriting` says which expressions of a tree give way and to what, and which statements
are dropped from their blocks. Both may depend on what stands around a node: a rewriting
knows something about each place (`Rewriting.place`), and looks at a node with that.

A visit rewrites step by step: it notes what gives way and replaces it when it leaves the
nearest block, one expression after the other. `Rewriting.Underway` relates a tree to what
has become of it meanwhile, where the expressions that still wait stand as they did. Each
replacement takes one of them off the waiting ones (`Underway.replaced`). When none waits
any more, the tree has been rewritten (`Rewriting.Rewritten`).
-/

namespace JavaMend

namespace Node

variable {n c d m k : Node}

/-- What stands below two children stands at two places. -/
theorem eq_of_inside (distinct : (n.subtree.map Node.id).Nodup) (hc : c ∈ n.children)
    (hd : d ∈ n.children) (hm : m ∈ c.subtree) (hk : k ∈ d.subtree) (same : m.id = k.id) : d = c := by
  obtain ⟨front, back, split⟩ := List.append_of_mem hc
  by_contra differs
  refine (distinct_of_split split distinct).2 d ?_ k hk m hm same.symm
  rw [split, List.mem_append, List.mem_cons] at hd
  rw [List.mem_append]
  tauto

/-- A node does not stand below itself. -/
theorem id_ne_of_below (distinct : (n.subtree.map Node.id).Nodup) (hc : c ∈ n.children)
    (hm : m ∈ c.subtree) : m.id ≠ n.id := by
  rw [subtree_eq, List.map_cons, List.nodup_cons] at distinct
  intro same
  exact distinct.1 (same ▸ List.mem_map_of_mem (List.mem_flatMap.mpr ⟨c, hc, hm⟩))

end Node

/-- Which expressions give way, which statements are dropped, and what takes the place of
an expression. `γ` is what is known about a place. -/
structure Rewriting (γ : Type) where
  /-- What is known outside of the tree. -/
  outside : γ
  /-- What is known inside of a node. -/
  inside : γ → Node → γ
  gives : γ → Expr → Bool
  drops : γ → Stmt → Bool
  /-- May the second expression take the place of the first? -/
  makes : Expr → Expr → Prop
  /-- The class that what takes a place refers to. -/
  refers : String

namespace Rewriting

variable {γ : Type} (R : Rewriting γ) {mark mark' : NodeId} {acted acted' : Prop}
  {waits waits' : NodeId → Prop} {p : γ} {n c out : Node}

/-- Is the node an expression that gives way? -/
def isGiven (p : γ) (n : Node) : Bool := n.expr?.any (R.gives p)

/-- The children that are not dropped. Only a block drops any. -/
def kept (p : γ) (n : Node) : List Node :=
  match n with
  | .block b => (b.stmts.filter (!R.drops (R.inside p n) ·)).map .stmt
  | n => n.children

/-- What is known inside of some nodes, innermost first. -/
def place (nodes : List Node) : γ := nodes.foldr (fun n p => R.inside p n) R.outside

/-- The expression gives way, and nothing between it and the node does or is a block. -/
inductive Outermost (R : Rewriting γ) (e : Expr) : γ → Node → Prop where
  | here {p : γ} (gives : R.gives p e = true) : Outermost R e p (.expr e)
  | under {p : γ} {n c : Node} (other : R.isGiven p n = false) (open_ : n.block? = none)
      (mem : c ∈ n.children) (inner : Outermost R e (R.inside p n) c) : Outermost R e p n

/-- Something in the node gives way, in no statement that is dropped. -/
inductive Acts (R : Rewriting γ) : γ → Node → Prop where
  | here {p : γ} {n : Node} (given : R.isGiven p n = true) : Acts R p n
  | under {p : γ} {n c : Node} (mem : c ∈ R.kept p n) (inner : Acts R (R.inside p n) c) : Acts R p n

/-- A block in which statements are dropped has one that stays and in which something
gives way. -/
def Sparing : Prop :=
  ∀ p b s, s ∈ b.stmts → R.drops (R.inside p (.block b)) s = true →
    ∃ s' ∈ b.stmts, R.drops (R.inside p (.block b)) s' = false ∧ R.Acts (R.inside p (.block b)) (.stmt s')

/-- What waits inside of a node: nothing inside of a block. -/
def within (n : Node) (waits : NodeId → Prop) (id : NodeId) : Prop := n.block? = none ∧ waits id

/-- `out` is `n` in the course of the rewriting: expressions that give way have given way,
unless they wait. What is made is new, from `mark` on, but for what it is made of. What
does not give way is rebuilt only if something in it does. -/
inductive Underway (R : Rewriting γ) (mark : NodeId) (acted : Prop) :
    (NodeId → Prop) → γ → Node → Node → Prop where
  | waiting {waits : NodeId → Prop} {p : γ} {e : Expr} (here : R.gives p e = true)
      (noted : waits e.id) : Underway R mark acted waits p (.expr e) (.expr e)
  | given {waits : NodeId → Prop} {p : γ} {e new : Expr} (here : R.gives p e = true)
      (made : R.makes e new) (now : acted) (late : mark ≤ new.id)
      (inner : ∀ m ∈ (Node.expr new).subtree, m.id < mark →
        ∃ c ∈ (Node.expr e).children, m ∈ c.subtree) :
      Underway R mark acted waits p (.expr e) (.expr new)
  | rebuilt {waits : NodeId → Prop} {p : γ} {n out : Node} (other : R.isGiven p n = false)
      (label : out.label = n.label) (new : out = n ∨ mark ≤ out.id ∧ R.Acts p n)
      (length : (R.kept p n).length = out.children.length)
      (children : ∀ c c', (c, c') ∈ (R.kept p n).zip out.children →
        Underway R mark acted (within n waits) (R.inside p n) c c') :
      Underway R mark acted waits p n out

variable {R}

theorem kept_sublist : (R.kept p n).Sublist n.children := by
  cases n with
  | block b => exact List.filter_sublist.map Node.stmt
  | _ => exact List.Sublist.refl _

theorem kept_of_open (open_ : n.block? = none) : R.kept p n = n.children := by
  cases n with
  | block b => cases open_
  | _ => rfl

theorem mem_of_kept (mem : c ∈ R.kept p n) : c ∈ n.children := kept_sublist.subset mem

theorem Outermost.mem {e : Expr} (h : R.Outermost e p n) : .expr e ∈ n.subtree := by
  induction h with
  | here => exact Node.mem_subtree_self
  | under _ _ mem _ ih => exact Node.mem_subtree_of_child mem ih

theorem Outermost.acts {e : Expr} (h : R.Outermost e p n) : R.Acts p n := by
  induction h with
  | here gives => exact .here gives
  | under _ open_ mem _ ih => exact .under (by rwa [kept_of_open open_]) ih

/-- What acts in a child acts in the node, even if the child is dropped. -/
theorem Sparing.acts (sparing : R.Sparing) (mem : c ∈ n.children) (h : R.Acts (R.inside p n) c) :
    R.Acts p n := by
  by_cases stays : c ∈ R.kept p n
  · exact .under stays h
  cases n with
  | block b =>
    obtain ⟨s, inside, rfl⟩ := List.mem_map.mp mem
    have dropped : R.drops (R.inside p (.block b)) s = true := by
      by_contra kept
      refine stays (List.mem_map_of_mem (List.mem_filter.mpr ⟨inside, ?_⟩))
      rw [Bool.eq_false_iff.mpr kept]
      rfl
    obtain ⟨s', inside', kept, acts⟩ := sparing p b s inside dropped
    refine .under (List.mem_map_of_mem (List.mem_filter.mpr ⟨inside', ?_⟩)) acts
    rw [kept]
    rfl
  | _ => exact (stays mem).elim

/-- What acts in a node acts in the tree around it. -/
theorem Sparing.acts_root (sparing : R.Sparing) {above : List Node} {root : Node}
    (h : R.Acts (R.place above) n) (genuine : Path.GenuineList (n :: above))
    (last : (n :: above).getLast? = some root) : R.Acts R.outside root := by
  induction above generalizing n with
  | nil =>
    cases last
    exact h
  | cons parent above ih =>
    refine ih (sparing.acts genuine.1 h) genuine.2 ?_
    rwa [List.getLast?_cons_cons] at last

namespace Underway

/-- What does not give way is underway if its children are. -/
theorem around (other : R.isGiven p n = false) (label : out.label = n.label)
    (new : out = n ∨ mark ≤ out.id ∧ R.Acts p n)
    (children : List.Forall₂ (R.Underway mark acted (within n waits) (R.inside p n)) (R.kept p n)
      out.children) : R.Underway mark acted waits p n out := by
  rw [List.forall₂_iff_zip] at children
  exact .rebuilt other label new children.1 fun c c' => children.2

theorem sameSort (h : R.Underway mark acted waits p n out) : Node.SameSort n out := by
  cases h with
  | waiting => rfl
  | given => rfl
  | rebuilt _ label => exact Node.sameSort_of_label label.symm

theorem new (h : R.Underway mark acted waits p n out) : out = n ∨ mark ≤ out.id ∧ R.Acts p n := by
  cases h with
  | waiting => exact .inl rfl
  | given here _ _ late => exact .inr ⟨late, .here here⟩
  | rebuilt _ _ new => exact new

/-- Only what waits outside of inner blocks matters. -/
theorem mono (h : R.Underway mark acted waits p n out) (so : acted → acted')
    (imp : ∀ e, R.Outermost e p n → waits e.id → waits' e.id) :
    R.Underway mark acted' waits' p n out := by
  induction h generalizing waits' with
  | waiting here noted => exact .waiting here (imp _ (.here here) noted)
  | given here made now late inner => exact .given here made (so now) late inner
  | rebuilt other label new length children ih =>
    refine .rebuilt other label new length fun c c' pair => ih c c' pair ?_
    rintro e outermost ⟨open_, noted⟩
    exact ⟨open_, imp e (.under other open_ (mem_of_kept (List.of_mem_zip pair).1) outermost) noted⟩

/-- What is older than the rewriting was there before. -/
theorem mem_of_old (h : R.Underway mark acted waits p n out) {m : Node} (mem : m ∈ out.subtree)
    (old : m.id < mark) : m ∈ n.subtree := by
  induction h with
  | waiting => exact mem
  | given here made now late inner =>
    obtain ⟨c, hc, below⟩ := inner m mem old
    exact Node.mem_subtree_of_child hc below
  | @rebuilt waits p n out other label new length children ih =>
    rw [Node.subtree_eq, List.mem_cons] at mem
    rcases mem with rfl | mem
    · rcases new with rfl | ⟨late, -⟩
      · exact Node.mem_subtree_self
      · exact absurd old (Nat.not_lt_of_le late)
    · obtain ⟨c', hc', below⟩ := List.mem_flatMap.mp mem
      obtain ⟨i, hi', rfl⟩ := List.mem_iff_getElem.mp hc'
      have hi : i < (R.kept p n).length := length ▸ hi'
      have pair : ((R.kept p n)[i], out.children[i]) ∈ (R.kept p n).zip out.children :=
        List.mem_iff_getElem.mpr ⟨i, by simpa using ⟨hi, hi'⟩, by simp⟩
      exact Node.mem_subtree_of_child (mem_of_kept (List.getElem_mem hi)) (ih _ _ pair below)

section

variable {target new : Expr} {next used : NodeId} {out' : Node}

/-- An expression that is not there does not wait. -/
theorem missed (h : R.Underway mark acted waits p n out)
    (absent : ∀ m ∈ out.subtree, m.same (.expr target) = false) :
    R.Underway mark acted (fun id => waits id ∧ id ≠ target.id) p n out := by
  induction h with
  | waiting here noted =>
    refine .waiting here ⟨noted, fun same => ?_⟩
    exact beq_eq_false_iff_ne.mp (absent _ Node.mem_subtree_self) same
  | given here made now late inner => exact .given here made now late inner
  | rebuilt other label new length children ih =>
    refine .rebuilt other label new length fun c c' pair => (ih c c' pair ?_).mono id ?_
    · exact fun m hm => absent m (Node.mem_subtree_of_child (List.of_mem_zip pair).2 hm)
    · exact fun e _ => and_assoc.mp

/-- Replacing an expression that nothing around it takes along leaves it waiting no more. -/
theorem replaced (h : R.Underway mark acted waits p n out) (outermost : R.Outermost target p n)
    (distinct : (n.subtree.map Node.id).Nodup) (old : target.id < mark)
    (made : R.makes target new) (so : acted → acted') (now : acted') (late : mark ≤ new.id)
    (inner : ∀ m ∈ (Node.expr new).subtree, m.id < mark →
      ∃ c ∈ (Node.expr target).children, m ∈ c.subtree)
    (from_ : mark ≤ next) (coherent : out.Coherent)
    (ran : out.replaceExpr? target new next = (some out', used)) :
    R.Underway mark acted' (fun id => waits id ∧ id ≠ target.id) p n out' := by
  induction outermost generalizing waits out next used out' with
  | here gives =>
    rcases Node.replaceExpr?_cases ran with ⟨-, rfl, -⟩ | ⟨differs, c, hc, _, _, _, _, found, _, _⟩
    · exact .given gives made now late inner
    · cases h with
      | waiting => exact absurd (Node.same_self _) (Bool.eq_false_iff.mp differs)
      | rebuilt other => cases other.symm.trans gives
      | given _ _ _ _ inner' =>
        -- What took the place is made of what stood below the target.
        obtain ⟨m, hm, same⟩ := Node.replaceExpr?_found found
        have at_ : m.id = target.id := Node.id_of_same same
        obtain ⟨d, hd, below⟩ := inner' m (Node.mem_subtree_of_child hc hm) (at_ ▸ old)
        exact absurd at_ (Node.id_ne_of_below distinct hd below)
  | @under p n d other open_ mem outermost ih =>
    cases h with
    | waiting here => cases other.symm.trans here
    | given here => cases other.symm.trans here
    | rebuilt _ label new' length children =>
      have children : List.Forall₂ (R.Underway mark acted (within n waits) (R.inside p n)) n.children
          out.children := by
        rw [← kept_of_open (R := R) (p := p) open_, List.forall₂_iff_zip]
        exact ⟨length, children _ _⟩
      rcases Node.replaceExpr?_cases ran with
        ⟨same, -, -⟩ | ⟨-, c, hc, _, id', _, le, found, rfl, _⟩
      · have at_ : out.id = target.id := Node.id_of_same same
        rcases new' with rfl | ⟨rebuilt, -⟩
        · exact absurd at_.symm (Node.id_ne_of_below distinct mem outermost.mem)
        · exact absurd (at_ ▸ old) (Nat.not_lt_of_le rebuilt)
      · obtain ⟨m, hm, same⟩ := Node.replaceExpr?_found found
        have at_ : m.id = target.id := Node.id_of_same same
        obtain ⟨front', twin, back', split', sameChild, refilled⟩ :=
          Node.replaceChild_refilled id' hc (Node.replaceExpr?_sameSort found)
        have there : twin ∈ out.children := split' ▸ List.mem_append_right _ List.mem_cons_self
        cases coherent.eq_of_same there hc sameChild
        rw [split'] at children
        have fronts := List.forall₂_take_append _ _ _ children
        obtain ⟨c₀, back, child, backs, dropped⟩ :=
          List.forall₂_cons_right_iff.mp (List.forall₂_drop_append _ _ _ children)
        have split : n.children = n.children.take front'.length ++ c₀ :: back := by
          rw [← dropped, List.take_append_drop]
        generalize n.children.take front'.length = front at fronts split
        have hc₀ : c₀ ∈ n.children := split ▸ List.mem_append_right _ List.mem_cons_self
        have below : m ∈ c₀.subtree := child.mem_of_old hm (at_ ▸ old)
        cases Node.eq_of_inside distinct mem hc₀ outermost.mem below at_.symm
        obtain ⟨own, beside⟩ := Node.distinct_of_split split distinct
        have inside := ih child own (Nat.le_trans from_ le) (coherent.child hc) found
        -- The target is in no other child.
        have kept {olds news : List Node} (subset : ∀ k ∈ olds, k ∈ front ++ back)
            (h : List.Forall₂ (R.Underway mark acted (within n waits) (R.inside p n)) olds news) :
            List.Forall₂ (R.Underway mark acted' (within n fun id => waits id ∧ id ≠ target.id)
              (R.inside p n)) olds news := by
          rw [List.forall₂_iff_zip] at h ⊢
          refine ⟨h.1, fun {k k'} pair => (h.2 pair).mono so fun e inner noted => ?_⟩
          refine and_assoc.mp ⟨noted, fun same => ?_⟩
          exact beside k (subset _ (List.of_mem_zip pair).1) _ inner.mem _ outermost.mem same
        refine .around other (refilled.label.trans label) (.inr ⟨?_, ?_⟩) ?_
        · have grown := (Node.replaceExpr?_grows target new c).le found
          rw [Node.replaceChild, Node.id_withChildren]
          exact Nat.le_trans from_ (Nat.le_trans le grown)
        · exact (Outermost.under other open_ mem outermost).acts
        · rw [kept_of_open open_, refilled.children, split]
          exact List.rel_append (kept (fun k hk => List.mem_append_left _ hk) fronts)
            (.cons (inside.mono id fun _ _ => and_assoc.mp)
              (kept (fun k hk => List.mem_append_right _ hk) backs))

end

/-- When nothing waits any more, what gives way has given way to something new. -/
theorem of_acts (h : R.Underway mark acted waits p n out) (nothing : ∀ id, ¬ waits id)
    (acts : R.Acts p n) : acted ∧ ∃ m ∈ out.subtree, mark ≤ m.id := by
  induction acts generalizing waits out with
  | here given =>
    cases h with
    | waiting _ noted => exact (nothing _ noted).elim
    | given _ _ now late => exact ⟨now, _, Node.mem_subtree_self, late⟩
    | rebuilt other => cases other.symm.trans given
  | @under p n c mem _ ih =>
    cases h with
    | waiting _ noted => exact (nothing _ noted).elim
    | given _ _ now late => exact ⟨now, _, Node.mem_subtree_self, late⟩
    | @rebuilt _ _ _ out _ _ _ length children =>
      obtain ⟨i, hi, rfl⟩ := List.mem_iff_getElem.mp mem
      have hi' : i < out.children.length := length ▸ hi
      have pair : ((R.kept p n)[i], out.children[i]) ∈ (R.kept p n).zip out.children :=
        List.mem_iff_getElem.mpr ⟨i, by simpa using ⟨hi, hi'⟩, by simp⟩
      obtain ⟨now, m, mem, late⟩ := ih (children _ _ pair) fun id noted => nothing id noted.2
      exact ⟨now, m, Node.mem_subtree_of_child (List.getElem_mem hi') mem, late⟩

end Underway

/-! ## Rewritten trees -/

/-- `out` is what the rewriting makes of `n`, all ids aside. -/
def Rewritten (R : Rewriting γ) : γ → Node → Node → Prop := R.Underway 0 True fun _ => False

/-- When nothing waits any more, the tree has been rewritten. -/
theorem Underway.rewritten (h : R.Underway mark acted waits p n out) (nothing : ∀ id, ¬ waits id) :
    R.Rewritten p n out := by
  induction h with
  | waiting _ noted => exact (nothing _ noted).elim
  | given here made =>
    exact .given here made trivial (Nat.zero_le _) fun m _ late => (Nat.not_lt_zero _ late).elim
  | rebuilt other label new length _ ih =>
    refine .rebuilt other label (new.imp_right fun h => ⟨Nat.zero_le _, h.2⟩) length fun c c' pair => ?_
    exact (ih c c' pair fun id noted => nothing id noted.2).mono id fun _ _ => False.elim

namespace Rewritten

/-- What gives way has given way, and all else keeps its label. -/
theorem cases (h : R.Rewritten p n out) :
    (∃ e new, n = .expr e ∧ out = .expr new ∧ R.gives p e = true ∧ R.makes e new) ∨
      R.isGiven p n = false ∧ out.label = n.label ∧
        List.Forall₂ (R.Rewritten (R.inside p n)) (R.kept p n) out.children := by
  cases h with
  | waiting _ noted => exact noted.elim
  | given here made => exact .inl ⟨_, _, rfl, rfl, here, made⟩
  | rebuilt other label _ length children =>
    refine .inr ⟨other, label, List.forall₂_iff_zip.mpr ⟨length, fun {c c'} pair => ?_⟩⟩
    exact (children c c' pair).mono id fun _ _ => And.right

/-- Where nothing gives way, nothing changes. -/
theorem eq_of_not_acts (h : R.Rewritten p n out) (nothing : ¬ R.Acts p n) : out = n :=
  h.new.resolve_right fun changed => nothing changed.2

end Rewritten

end Rewriting

end JavaMend
