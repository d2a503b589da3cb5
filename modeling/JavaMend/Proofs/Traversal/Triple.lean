import JavaMend.Proofs.Tree.Lens
import JavaMend.Traversal.Visitor
import Mathlib.Data.List.Forall2
import JavaMend.Traversal.Cursor

/-!
# What a visit ends with

`VisitM.Triple pre action post` is the partial-correctness triple of a visit: from
every site that meets `pre`, if the visit succeeds, its answer and the site it
leaves meet `post`. There is one rule for each thing that visits are made of.

A visit may fail, and a failure ends the whole pass. `VisitM.Succeeds` is the
total-correctness triple: from every site whose cursor is sound the visit
ends without a failure, on a site whose cursor is sound again, with an answer
of a given sort. What makes a cursor sound is a parameter.

`Visitor.run_succeeds` is the one induction over the tree: a visitor that
succeeds on a node whenever the descent below the node does, succeeds on every
tree.
-/

namespace JavaMend

/-! ## Frames and their notes

What an operation of a cursor does to the frames of the cursor: `Cursor.atFrame`
changes one frame and leaves the others, and a change of the notes under one key
leaves the node of the frame and the notes under all other keys. -/

section

variable {μ α β : Type}

namespace Frame

variable {f : Frame μ} {key other : String}

@[simp]
theorem node_insert (f : Frame μ) (key : String) (note : μ) : (f.insert key note).node = f.node :=
  rfl

@[simp]
theorem node_erase (f : Frame μ) (key : String) : (f.erase key).node = f.node := rfl

theorem lookup_filter_of_ne {notes : List (String × μ)} (ne : other ≠ key) :
    (notes.filter (·.1 != key)).lookup other = notes.lookup other := by
  induction notes with
  | nil => rfl
  | cons entry rest ih =>
    obtain ⟨name, note⟩ := entry
    by_cases same : name = key
    · subst same
      simp [List.lookup_cons, beq_eq_false_iff_ne.mpr ne, ih]
    · simp [List.lookup_cons, same, ih]

theorem note?_insert_of_ne (ne : other ≠ key) (note : μ) :
    (f.insert key note).note? other = f.note? other := by
  unfold note? insert
  rw [List.lookup_cons, beq_eq_false_iff_ne.mpr ne]
  exact lookup_filter_of_ne ne

theorem note?_erase_of_ne (ne : other ≠ key) : (f.erase key).note? other = f.note? other :=
  lookup_filter_of_ne ne

@[simp]
theorem node_take (f : Frame μ) (topic : Topic μ α) : (f.take topic).2.node = f.node := by
  unfold take
  split <;> rfl

@[simp]
theorem node_modify (f : Frame μ) (topic : Topic μ α) (init : α) (change : α → α) :
    (f.modify topic init change).2.node = f.node := by
  unfold modify
  split
  · rfl
  · split <;> rfl

/-- Changing the value of one topic leaves the values under other keys. -/
theorem read?_modify_of_ne {topic : Topic μ α} {asked : Topic μ β} (ne : asked.key ≠ topic.key)
    (init : α) (change : α → α) : (f.modify topic init change).2.read? asked = f.read? asked := by
  unfold modify
  split
  · exact congrArg (·.bind asked.read?) (note?_insert_of_ne ne _)
  · split
    · exact congrArg (·.bind asked.read?) (note?_insert_of_ne ne _)
    · rfl

end Frame

namespace Cursor

variable {c : Cursor μ}

theorem mem_of_frame? {index : Nat} {f : Frame μ} (found : c.frame? index = some f) :
    f ∈ c.frames := by
  unfold frame? at found
  split at found
  · exact List.mem_of_getElem? found
  · cases found

theorem frame?_of_split {front back : List (Frame μ)} {f : Frame μ}
    (split : c.frames = front ++ f :: back) : c.frame? back.length = some f := by
  have depth : c.depth = front.length + (back.length + 1) := by
    unfold Cursor.depth
    rw [split, List.length_append, List.length_cons]
  unfold frame?
  rw [if_pos (by omega), depth, split, show front.length + (back.length + 1) - 1 - back.length =
    front.length by omega, List.getElem?_append_right (Nat.le_refl _), Nat.sub_self]
  rfl

/-- A change of one frame leaves the frames below and above it. -/
theorem atFrame_of_split {front back : List (Frame μ)} {f : Frame μ}
    (split : c.frames = front ++ f :: back) (change : Frame μ → Option α × Frame μ) :
    c.atFrame back.length change = ((change f).1, ⟨front ++ (change f).2 :: back⟩) := by
  have at_ : c.depth - 1 - back.length = front.length := by
    unfold Cursor.depth
    rw [split, List.length_append, List.length_cons]
    omega
  unfold atFrame
  rw [frame?_of_split split]
  dsimp only
  rw [at_, split, List.set_append_right _ _ (Nat.le_refl _), Nat.sub_self]
  rfl

/-- A change that keeps what is asked of a frame keeps it of all frames. -/
theorem forall₂_atFrame {keeps : Frame μ → Frame μ → Prop} (self : ∀ f, keeps f f) {index : Nat}
    {change : Frame μ → Option α × Frame μ} (changed : ∀ f, keeps f (change f).2) :
    List.Forall₂ keeps c.frames (c.atFrame index change).2.frames := by
  have same : ∀ frames, List.Forall₂ keeps frames frames :=
    fun frames => List.forall₂_same.mpr fun f _ => self f
  unfold atFrame
  split
  next => exact same _
  next f found =>
    unfold frame? at found
    split at found
    next inside =>
      obtain ⟨hi, rfl⟩ := List.getElem?_eq_some_iff.mp found
      dsimp only
      rw [List.set_eq_take_append_cons_drop, if_pos hi]
      conv_lhs => rw [← List.take_append_drop (c.depth - 1 - index) c.frames, List.drop_eq_getElem_cons hi]
      exact List.rel_append (same _) (.cons (changed _) (same _))
    next => cases found

/-- What holds of all frames, and still holds of a frame that is changed, holds of
all frames after the change. -/
theorem forall_atFrame {p : Frame μ → Prop} {index : Nat} {change : Frame μ → Option α × Frame μ}
    (all : ∀ f ∈ c.frames, p f) (keeps : ∀ f, p f → p (change f).2) :
    ∀ f ∈ (c.atFrame index change).2.frames, p f := by
  unfold atFrame
  split
  next => exact all
  next g found =>
    intro f mem
    rcases List.mem_or_eq_of_mem_set mem with mem | same
    · exact all f mem
    · exact same ▸ keeps g (all g (mem_of_frame? found))

end Cursor

end

/-! ## What a visit ends with -/

variable {ε μ σ α β : Type}

namespace VisitM

/-- A visit and what follows it succeed only one after the other. -/
theorem ok_of_bind {first : VisitM ε μ σ β} {next : β → VisitM ε μ σ α} {site site' : Site μ σ}
    {a : α} (h : (first >>= next) site = .ok a site') :
    ∃ b between, first site = .ok b between ∧ next b between = .ok a site' := by
  change EStateM.bind first next site = _ at h
  cases ran : first site with
  | ok b between =>
    simp only [EStateM.bind, ran] at h
    exact ⟨b, between, rfl, h⟩
  | error e between =>
    simp only [EStateM.bind, ran] at h
    cases h

theorem bind_of_ok {first : VisitM ε μ σ β} {next : β → VisitM ε μ σ α} {site between : Site μ σ}
    {b : β} (ran : first site = .ok b between) : (first >>= next) site = next b between := by
  show EStateM.bind first next site = _
  simp only [EStateM.bind, ran]

/-- From every site that meets `pre`, a visit that succeeds ends in `post`. -/
def Triple (pre : Site μ σ → Prop) (action : VisitM ε μ σ α) (post : α → Site μ σ → Prop) : Prop :=
  ∀ ⦃site a site'⦄, pre site → action site = .ok a site' → post a site'

namespace Triple

variable {pre : Site μ σ → Prop} {post : α → Site μ σ → Prop}

theorem pure {a : α} (h : ∀ site, pre site → post a site) :
    Triple pre (Pure.pure a : VisitM ε μ σ α) post := by
  intro site b site' hpre ran
  cases ran
  exact h site hpre

theorem bind {mid : β → Site μ σ → Prop} {first : VisitM ε μ σ β} {next : β → VisitM ε μ σ α}
    (hfirst : Triple pre first mid) (hnext : ∀ b, Triple (mid b) (next b) post) :
    Triple pre (first >>= next) post := by
  intro site a site' hpre ran
  obtain ⟨b, between, ran₁, ran₂⟩ := ok_of_bind ran
  exact hnext b (hfirst hpre ran₁) ran₂

/-- A triple serves wherever less is asked for and more is known. -/
theorem mono {pre' : Site μ σ → Prop} {post' : α → Site μ σ → Prop} {action : VisitM ε μ σ α}
    (h : Triple pre action post) (hpre : ∀ site, pre' site → pre site)
    (hpost : ∀ a site, post a site → post' a site) : Triple pre' action post' :=
  fun site a site' hsite ran => hpost a site' (h (hpre site hsite) ran)

/-- Two triples of one visit are one. -/
theorem and {pre' : Site μ σ → Prop} {post' : α → Site μ σ → Prop} {action : VisitM ε μ σ α}
    (h : Triple pre action post) (h' : Triple pre' action post') :
    Triple (fun site => pre site ∧ pre' site) action fun a site => post a site ∧ post' a site :=
  fun _ _ _ hsite ran => ⟨h hsite.1 ran, h' hsite.2 ran⟩

/-- What is known independently of the site is known throughout. -/
theorem assuming {known : Prop} {action : VisitM ε μ σ α} (h : known → Triple pre action post) :
    Triple (fun site => known ∧ pre site) action post :=
  fun _ _ _ hsite ran => h hsite.1 hsite.2 ran

/-- Something that is known to exist can be named. -/
theorem naming {ι : Type} {pre : ι → Site μ σ → Prop} {action : VisitM ε μ σ α}
    (h : ∀ i, Triple (pre i) action post) : Triple (fun site => ∃ i, pre i site) action post :=
  fun _ _ _ ⟨i, hsite⟩ ran => h i hsite ran

theorem throw {e : ε} : Triple pre (MonadExcept.throw e : VisitM ε μ σ α) post := by
  intro site a site' _ ran
  cases ran

theorem fresh {make : Fresh α}
    (h : ∀ site, pre site → post (make site.next).1 { site with next := (make site.next).2 }) :
    Triple pre (VisitM.fresh make : VisitM ε μ σ α) post := by
  intro site a site' hpre ran
  cases ran
  exact h site hpre

theorem modifyCursor {change : Cursor μ → α × Cursor μ}
    (h : ∀ site, pre site →
      post (change site.cursor).1 { site with cursor := (change site.cursor).2 }) :
    Triple pre (VisitM.modifyCursor change : VisitM ε μ σ α) post := by
  intro site a site' hpre ran
  cases ran
  exact h site hpre

theorem path {post : Path → Site μ σ → Prop} (h : ∀ site, pre site → post site.cursor.path site) :
    Triple pre (VisitM.path : VisitM ε μ σ Path) post := by
  intro site a site' hpre ran
  cases ran
  exact h site hpre

theorem own {post : σ → Site μ σ → Prop} (h : ∀ site, pre site → post site.own site) :
    Triple pre (VisitM.own : VisitM ε μ σ σ) post := by
  intro site a site' hpre ran
  cases ran
  exact h site hpre

theorem modifyOwn {change : σ → σ} {post : Unit → Site μ σ → Prop}
    (h : ∀ site, pre site → post () { site with own := change site.own }) :
    Triple pre (VisitM.modifyOwn change : VisitM ε μ σ Unit) post := by
  intro site a site' hpre ran
  cases ran
  exact h site hpre

/-- An action one frame further down. -/
theorem inFrame {n : Node} {action : VisitM ε μ σ α} {below : Site μ σ → Prop}
    {ended : α → Site μ σ → Prop} (h : Triple below action ended)
    (push : ∀ site, pre site → below { site with cursor := site.cursor.push n })
    (pop : ∀ a site, ended a site → post a { site with cursor := site.cursor.pop }) :
    Triple pre (VisitM.inFrame n action) post := by
  intro site a site' hpre ran
  unfold VisitM.inFrame at ran
  split at ran
  next a₁ site₁ inner =>
    cases ran
    exact pop _ _ (h (push site hpre) inner)
  next => cases ran

/-! ## Lists of visits -/

/-- Visits one after the other, where `inv done outs` is known after the visits
`done` with the answers `outs`. -/
theorem mapM {f : β → VisitM ε μ σ α} {items : List β}
    (inv : List β → List α → Site μ σ → Prop)
    (step : ∀ done b rest outs, items = done ++ b :: rest →
      Triple (inv done outs) (f b) fun a => inv (done ++ [b]) (outs ++ [a])) :
    Triple (inv [] []) (items.mapM f) (inv items) := by
  suffices from_ : ∀ (rest done : List β) (outs : List α), items = done ++ rest →
      Triple (inv done outs) (rest.mapM f) fun more => inv items (outs ++ more) from
    from_ items [] [] rfl
  intro rest
  induction rest with
  | nil =>
    intro done outs split
    rw [List.append_nil] at split
    subst split
    rw [List.mapM_nil]
    refine pure fun site h => ?_
    rwa [List.append_nil]
  | cons b rest ih =>
    intro done outs split
    rw [List.mapM_cons]
    refine (step done b rest outs split).bind fun a => ?_
    have tail := ih (done ++ [b]) (outs ++ [a]) (by rw [split, List.append_assoc]; rfl)
    refine tail.bind fun more => pure fun site h => ?_
    rwa [List.append_assoc] at h

/-- An invariant of each of some visits is one of all of them in a row. -/
theorem forM {f : β → VisitM ε μ σ PUnit} {inv : Site μ σ → Prop} (items : List β)
    (step : ∀ b ∈ items, Triple inv (f b) fun _ => inv) :
    Triple inv (items.forM f) fun _ => inv := by
  induction items with
  | nil => exact pure fun _ h => h
  | cons b rest ih =>
    show Triple inv (f b >>= fun _ => rest.forM f) _
    exact (step b List.mem_cons_self).bind fun _ => ih fun b' hb' => step b' (List.mem_cons_of_mem _ hb')

theorem foldlM {f : α → β → VisitM ε μ σ α} {inv : α → Site μ σ → Prop} (items : List β)
    (step : ∀ b ∈ items, ∀ a, Triple (inv a) (f a b) inv) (a : α) :
    Triple (inv a) (items.foldlM f a) inv := by
  induction items generalizing a with
  | nil => exact pure fun _ h => h
  | cons b rest ih =>
    rw [List.foldlM_cons]
    exact (step b List.mem_cons_self a).bind fun a' =>
      ih (fun b' hb' => step b' (List.mem_cons_of_mem _ hb')) a'

end Triple

/-! ## Visits that succeed -/

/-- From every site with a sound cursor the visit answers something of the sort
`post` and leaves a sound cursor. -/
def Succeeds (sound : Cursor μ → Prop) (post : α → Prop) (action : VisitM ε μ σ α) : Prop :=
  ∀ site, sound site.cursor →
    ∃ a site', action site = .ok a site' ∧ sound site'.cursor ∧ post a

namespace Succeeds

variable {sound : Cursor μ → Prop} {post : α → Prop}

theorem pure {a : α} (h : post a) :
    Succeeds sound post (Pure.pure a : VisitM ε μ σ α) :=
  fun site hsite => ⟨a, site, rfl, hsite, h⟩

theorem bind {mid : β → Prop} {first : VisitM ε μ σ β} {next : β → VisitM ε μ σ α}
    (h : Succeeds sound mid first) (hnext : ∀ b, mid b → Succeeds sound post (next b)) :
    Succeeds sound post (first >>= next) := by
  intro site hsite
  obtain ⟨b, site₁, run₁, hsound₁, hmid⟩ := h site hsite
  obtain ⟨a, site₂, run₂, hsound₂, hpost⟩ := hnext b hmid site₁ hsound₁
  refine ⟨a, site₂, ?_, hsound₂, hpost⟩
  show EStateM.bind first next site = _
  simp only [EStateM.bind, run₁, run₂]

/-- A first step whose answer does not matter. -/
theorem then_ {first : VisitM ε μ σ β} {next : β → VisitM ε μ σ α}
    (h : Succeeds sound (fun _ => True) first) (hnext : ∀ b, Succeeds sound post (next b)) :
    Succeeds sound post (first >>= next) :=
  h.bind fun b _ => hnext b

theorem fresh {make : Fresh α} (h : ∀ next, post (make next).1) :
    Succeeds sound post (VisitM.fresh make : VisitM ε μ σ α) :=
  fun site hsite => ⟨(make site.next).1, { site with next := (make site.next).2 }, rfl, hsite,
    h site.next⟩

theorem modifyCursor {change : Cursor μ → α × Cursor μ}
    (h : ∀ c, sound c → sound (change c).2 ∧ post (change c).1) :
    Succeeds sound post (VisitM.modifyCursor change : VisitM ε μ σ α) :=
  fun site hsite => ⟨(change site.cursor).1, { site with cursor := (change site.cursor).2 }, rfl,
    (h _ hsite).1, (h _ hsite).2⟩

theorem own : Succeeds sound (fun _ => True) (VisitM.own : VisitM ε μ σ σ) :=
  fun site hsite => ⟨site.own, site, rfl, hsite, trivial⟩

theorem modifyOwn {change : σ → σ} :
    Succeeds sound (fun _ => True) (VisitM.modifyOwn change : VisitM ε μ σ Unit) :=
  fun site hsite => ⟨(), { site with own := change site.own }, rfl, hsite, trivial⟩

theorem path : Succeeds sound (fun _ => True) (VisitM.path : VisitM ε μ σ Path) :=
  fun site hsite => ⟨site.cursor.path, site, rfl, hsite, trivial⟩

theorem inFrame {n : Node} {action : VisitM ε μ σ α}
    (push : ∀ c, sound c → sound (c.push n)) (pop : ∀ c, sound c → sound c.pop)
    (h : Succeeds sound post action) : Succeeds sound post (VisitM.inFrame n action) := by
  intro site hsite
  obtain ⟨a, site', run, hsound, hpost⟩ :=
    h { site with cursor := site.cursor.push n } (push _ hsite)
  refine ⟨a, { site' with cursor := site'.cursor.pop }, ?_, pop _ hsound, hpost⟩
  simp only [VisitM.inFrame, run]

theorem mapM {f : β → VisitM ε μ σ α} (items : List β)
    (h : ∀ b ∈ items, Succeeds sound post (f b)) :
    Succeeds sound (fun _ => True) (items.mapM f) := by
  induction items with
  | nil => exact pure trivial
  | cons b rest ih =>
    rw [List.mapM_cons]
    refine (h b List.mem_cons_self).bind fun _ _ => ?_
    refine (ih fun b' hb' => h b' (List.mem_cons_of_mem _ hb')).then_ fun _ => ?_
    exact pure trivial

theorem forM {f : β → VisitM ε μ σ PUnit} (items : List β)
    (h : ∀ b ∈ items, Succeeds sound (fun _ => True) (f b)) :
    Succeeds sound (fun _ => True) (items.forM f) := by
  induction items with
  | nil => exact pure trivial
  | cons b rest ih =>
    show Succeeds sound (fun _ => True) (f b >>= fun _ => rest.forM f)
    refine (h b List.mem_cons_self).then_ fun _ => ?_
    exact ih fun b' hb' => h b' (List.mem_cons_of_mem _ hb')

theorem foldlM {f : α → β → VisitM ε μ σ α} (items : List β)
    (h : ∀ b ∈ items, ∀ a, Succeeds sound (fun _ => True) (f a b)) (a : α) :
    Succeeds sound (fun _ => True) (items.foldlM f a) := by
  induction items generalizing a with
  | nil => exact pure trivial
  | cons b rest ih =>
    rw [List.foldlM_cons]
    refine (h b List.mem_cons_self a).then_ fun a' => ?_
    exact ih (fun b' hb' => h b' (List.mem_cons_of_mem _ hb')) a'

end Succeeds

end VisitM

/-- Children that came back as they were leave the node as it was. -/
theorem Visitor.settle_self (n : Node) : (settle n n.children : VisitM ε μ σ Node) = pure n := by
  unfold settle
  rw [if_pos]
  rw [List.all_eq_true]
  rintro ⟨old, new⟩ mem
  obtain ⟨i, hi, at_⟩ := List.mem_iff_getElem.mp mem
  simp only [List.getElem_zip, Prod.mk.injEq] at at_
  obtain ⟨rfl, rfl⟩ := at_
  exact Node.same_self _

/-- A visit of a node descends into its children one after the other. -/
theorem Visitor.run_eq (v : Visitor ε μ σ) (n : Node) :
    v.run n =
      v.visit n (n.children.mapM (fun c => VisitM.inFrame c (v.run c)) >>= settle n) := by
  rw [Visitor.run]
  simp only [List.mapM_subtype, List.unattach_attach]

namespace Visitor

/-- The visitor succeeds on a node whenever the descent below it does. -/
def Succeeds (sound : Cursor μ → Prop) (v : Visitor ε μ σ) : Prop :=
  ∀ n descend, VisitM.Succeeds sound (fun _ => True) descend →
    VisitM.Succeeds sound (fun _ => True) (v.visit n descend)

variable {sound : Cursor μ → Prop}

theorem settle_succeeds (n : Node) (news : List Node) :
    VisitM.Succeeds sound (fun _ => True) (settle n news : VisitM ε μ σ Node) := by
  unfold settle
  split
  · exact .pure trivial
  · exact .fresh fun _ => trivial

/-- A visitor that succeeds on each node, given the descent, succeeds on every
tree. -/
theorem run_succeeds {v : Visitor ε μ σ} (push : ∀ c n, sound c → sound (c.push n))
    (pop : ∀ c, sound c → sound c.pop) (h : v.Succeeds sound) (n : Node) :
    VisitM.Succeeds sound (fun _ => True) (v.run n) := by
  have below : ∀ c ∈ n.children.attach,
      VisitM.Succeeds sound (fun _ => True) (VisitM.inFrame c.1 (v.run c.1)) := by
    rintro ⟨c, hc⟩ -
    exact .inFrame (push · c) pop (run_succeeds push pop h c)
  rw [run]
  apply h
  exact (VisitM.Succeeds.mapM _ below).then_ fun news => settle_succeeds n news
termination_by sizeOf n
decreasing_by exact Node.sizeOf_lt_of_mem_children hc

end Visitor

end JavaMend
