import JavaMend.Flow.State
import Mathlib.Data.List.Dedup

/-!
# Live locals

What the operations on flow states do to the live locals, which are all that a
walk ever asks about, and why a state cannot grow forever: joining more into it
makes more locals tainted or live, and there are only so many names.

A walk starts with the empty state, gives values to locals, covers them by guards and
joins states where paths meet. On the states that it comes to (`FlowState.Reachable`),
`join` is the join of a semilattice (`FlowState.Reachable.joinLaws`). A join works out
anew which locals are covered: those that are live on neither side. So it is plain only
in terms of what is tainted and what is live, and these two tell states apart as long as
no local is covered that is not tainted (`FlowState.beq_iff_isLive`). Every operation
keeps to that.
-/

namespace JavaMend.FlowState

variable {s a b : FlowState} {x name : String}

theorem isLive_eq_true : s.isLive x = true ↔ x ∈ s.tainted ∧ x ∉ s.sanitized := by
  simp [isLive]

@[simp] theorem isLive_taint : (s.taint name).isLive x = if x = name then true else s.isLive x := by
  by_cases h : x = name
  · simp [isLive, taint, h]
  · simp [isLive, taint, h]

@[simp] theorem isLive_clear :
    (s.clear name).isLive x = if x = name then false else s.isLive x := by
  by_cases h : x = name
  · simp [isLive, clear, h]
  · simp [isLive, clear, h]

@[simp] theorem isLive_assign {value : Bool} :
    (s.assign name value).isLive x = if x = name then value else s.isLive x := by
  cases value
  · exact isLive_clear
  · exact isLive_taint

@[simp] theorem isLive_sanitize :
    (s.sanitize name).isLive x = (s.isLive x && x != name) := by
  unfold sanitize
  by_cases held : s.tainted.contains name = true
  · rw [if_pos held]
    by_cases h : x = name
    · simp [isLive, h]
    · simp [isLive, h]
  · rw [if_neg held]
    by_cases h : x = name
    · subst h
      simp only [Bool.not_eq_true] at held
      simp only [isLive, held, Bool.false_and]
    · simp [h]

/-- Guards cover every local that they read. -/
theorem isLive_foldl_sanitize (names : List String) :
    (names.foldl sanitize s).isLive x = (s.isLive x && !names.contains x) := by
  induction names generalizing s with
  | nil => simp
  | cons name rest ih =>
    rw [List.foldl_cons, ih, isLive_sanitize, List.contains_cons, Bool.not_or, Bool.and_assoc]
    rfl

/-- A local is live where two paths meet if it is live on one of them. -/
@[simp] theorem isLive_join : (a.join b).isLive x = (a.isLive x || b.isLive x) := by
  rw [Bool.eq_iff_iff, Bool.or_eq_true, isLive_eq_true]
  simp only [join, List.mem_append, List.mem_filter, List.contains_eq_mem]
  by_cases ha : x ∈ a.tainted <;> by_cases hb : x ∈ b.tainted <;> simp [isLive, ha, hb]
  tauto

theorem liveCount_eq_zero_iff : s.liveCount = 0 ↔ ∀ x, s.isLive x = false := by
  simp only [liveCount, List.length_eq_zero_iff, List.filter_eq_nil_iff, Bool.not_eq_true', isLive,
    Bool.and_eq_false_iff, List.contains_eq_mem, decide_eq_false_iff_not, Bool.not_eq_false']
  constructor
  · intro h x
    by_cases held : x ∈ s.tainted
    · have := h x held
      simp_all
    · exact .inl held
  · intro h x held
    rcases h x with free | covered
    · exact (free held).elim
    · simp_all

/-! ## States over some names -/

/-- A state whose locals are all among `names`, and which covers none but
tainted ones. -/
structure Within (names : List String) (s : FlowState) : Prop where
  tainted : ∀ x ∈ s.tainted, x ∈ names
  sanitized : ∀ x ∈ s.sanitized, x ∈ s.tainted

variable {names : List String}

theorem within_empty : Within names empty :=
  ⟨fun _ h => (List.not_mem_nil h).elim, fun _ h => (List.not_mem_nil h).elim⟩

theorem Within.assign (h : Within names s) (known : name ∈ names) (value : Bool) :
    Within names (s.assign name value) := by
  cases value with
  | true =>
    refine ⟨?_, ?_⟩
    · intro x hx
      rcases List.mem_insert_iff.mp hx with rfl | hx
      · exact known
      · exact h.tainted x hx
    · intro x hx
      exact List.mem_insert_iff.mpr (.inr (h.sanitized x (List.mem_filter.mp hx).1))
  | false =>
    refine ⟨?_, ?_⟩
    · intro x hx
      exact h.tainted x (List.mem_filter.mp hx).1
    · intro x hx
      obtain ⟨hx, ne⟩ := List.mem_filter.mp hx
      exact List.mem_filter.mpr ⟨h.sanitized x hx, ne⟩

theorem Within.sanitize (h : Within names s) (name : String) : Within names (s.sanitize name) := by
  unfold FlowState.sanitize
  split
  · next held =>
    refine ⟨h.tainted, fun x hx => ?_⟩
    rcases List.mem_insert_iff.mp hx with rfl | hx
    · exact List.contains_iff_mem.mp held
    · exact h.sanitized x hx
  · exact h

theorem Within.foldl_sanitize (h : Within names s) (covered : List String) :
    Within names (covered.foldl FlowState.sanitize s) := by
  induction covered generalizing s with
  | nil => exact h
  | cons name rest ih => exact ih (h.sanitize name)

theorem mem_tainted_join : x ∈ (a.join b).tainted ↔ x ∈ a.tainted ∨ x ∈ b.tainted := by
  simp only [join, List.mem_append, List.mem_filter, List.contains_eq_mem]
  by_cases ha : x ∈ a.tainted <;> simp [ha]

theorem Within.join (ha : Within names a) (hb : Within names b) : Within names (a.join b) := by
  refine ⟨fun x hx => ?_, fun x hx => (List.mem_filter.mp hx).1⟩
  rcases mem_tainted_join.mp hx with hx | hx
  · exact ha.tainted x hx
  · exact hb.tainted x hx

/-! ## Growth -/

/-- How many names are tainted, and once more how many are live. -/
def size (names : List String) (s : FlowState) : Nat :=
  names.countP s.tainted.contains + names.countP s.isLive

theorem size_le : size names s ≤ 2 * names.length := by
  have tainted := List.countP_le_length (p := s.tainted.contains) (l := names)
  have live := List.countP_le_length (p := s.isLive) (l := names)
  unfold size
  omega

theorem sameMembers_iff {l m : List String} : sameMembers l m = true ↔ ∀ x, x ∈ l ↔ x ∈ m := by
  simp only [sameMembers, Bool.and_eq_true, List.all_eq_true, List.contains_eq_mem,
    decide_eq_true_eq]
  constructor
  · intro h x
    obtain ⟨forth, back⟩ := h
    exact ⟨forth x, back x⟩
  · intro same
    exact ⟨fun x => (same x).mp, fun x => (same x).mpr⟩

theorem beq_iff :
    (a == b) = true ↔
      (∀ x, x ∈ a.tainted ↔ x ∈ b.tainted) ∧ ∀ x, x ∈ a.sanitized ↔ x ∈ b.sanitized := by
  rw [← sameMembers_iff, ← sameMembers_iff, ← Bool.and_eq_true]
  exact Iff.rfl

theorem isLive_of_beq (h : (a == b) = true) (x : String) : a.isLive x = b.isLive x := by
  obtain ⟨tainted, sanitized⟩ := beq_iff.mp h
  rw [Bool.eq_iff_iff, isLive_eq_true, isLive_eq_true, tainted, sanitized]

/-- More of a list satisfies a weaker condition, if one item tells them apart. -/
theorem countP_lt_of_imp {p q : String → Bool} {l : List String}
    (imp : ∀ x ∈ l, p x = true → q x = true) {x : String} (mem : x ∈ l) (hq : q x = true)
    (hp : p x = false) : l.countP p < l.countP q := by
  induction l with
  | nil => cases mem
  | cons y rest ih =>
    have rest_le : rest.countP p ≤ rest.countP q :=
      List.countP_mono_left fun z hz => imp z (List.mem_cons_of_mem _ hz)
    rcases List.mem_cons.mp mem with rfl | mem
    · rw [List.countP_cons_of_pos hq,
        List.countP_cons_of_neg (by rw [hp]; exact Bool.false_ne_true)]
      omega
    · have rest_lt := ih (fun z hz => imp z (List.mem_cons_of_mem _ hz)) mem
      have head := imp y List.mem_cons_self
      rw [List.countP_cons, List.countP_cons]
      split <;> split <;> first | omega | simp_all

/-- A join that is not the state it started from is larger. -/
theorem size_lt_join (ha : Within names a) (hb : Within names b) (ne : (a.join b == a) = false) :
    size names a < size names (a.join b) := by
  have grows : ∀ x, x ∈ a.tainted → x ∈ (a.join b).tainted :=
    fun x hx => mem_tainted_join.mpr (.inl hx)
  have lives : ∀ x, a.isLive x = true → (a.join b).isLive x = true := by
    intro x hx
    rw [isLive_join, hx, Bool.true_or]
  have tainted_le : names.countP a.tainted.contains ≤ names.countP (a.join b).tainted.contains :=
    List.countP_mono_left fun x _ hx => by
      simp only [List.contains_eq_mem, decide_eq_true_eq] at hx ⊢
      exact grows x hx
  have live_le : names.countP a.isLive ≤ names.countP (a.join b).isLive :=
    List.countP_mono_left fun x _ hx => lives x hx
  unfold size
  by_cases more : ∃ x ∈ (a.join b).tainted, x ∉ a.tainted
  · obtain ⟨x, joined, free⟩ := more
    have : names.countP a.tainted.contains < names.countP (a.join b).tainted.contains := by
      refine countP_lt_of_imp (x := x) ?_ ((ha.join hb).tainted x joined) ?_ ?_
      · intro y _ hy
        simp only [List.contains_eq_mem, decide_eq_true_eq] at hy ⊢
        exact grows y hy
      · simpa only [List.contains_eq_mem, decide_eq_true_eq] using joined
      · simpa only [List.contains_eq_mem, decide_eq_false_iff_not] using free
    omega
  · -- The same locals are tainted, so one that was covered is live now.
    have same : ∀ x, x ∈ (a.join b).tainted ↔ x ∈ a.tainted := fun x =>
      ⟨fun hx => by_contra fun free => more ⟨x, hx, free⟩, grows x⟩
    have live_or : ¬ ∀ x, (a.join b).isLive x = a.isLive x := by
      intro alike
      refine Bool.false_ne_true (ne.symm.trans (beq_iff.mpr ⟨same, fun x => ?_⟩))
      have at_x := alike x
      rw [Bool.eq_iff_iff, isLive_eq_true, isLive_eq_true, same x] at at_x
      constructor
      · intro covered
        have held := (same x).mp ((ha.join hb).sanitized x covered)
        by_contra free
        exact (at_x.mpr ⟨held, free⟩).2 covered
      · intro covered
        have held := ha.sanitized x covered
        by_contra free
        exact (at_x.mp ⟨held, free⟩).2 covered
    obtain ⟨x, hx⟩ := not_forall.mp live_or
    have dead : a.isLive x = false := by
      cases h : a.isLive x with
      | false => rfl
      | true => exact (hx ((lives x h).trans h.symm)).elim
    have live : (a.join b).isLive x = true := by
      cases h : (a.join b).isLive x with
      | true => rfl
      | false => exact (hx (h.trans dead.symm)).elim
    have known : x ∈ names := (ha.join hb).tainted x (isLive_eq_true.mp live).1
    have := countP_lt_of_imp (fun y _ => lives y) known live dead
    omega

/-! ## Equal states -/

variable {c a' b' : FlowState}

/-- No locals are covered but tainted ones. -/
def CoversTainted (s : FlowState) : Prop := ∀ x ∈ s.sanitized, x ∈ s.tainted

/-- A join covers some of its tainted locals, whatever is joined. -/
theorem coversTainted_join (a b : FlowState) : (a.join b).CoversTainted :=
  fun _ covered => (List.mem_filter.mp covered).1

theorem isTainted_eq_true : s.isTainted x = true ↔ x ∈ s.tainted := List.contains_iff_mem

theorem isTainted_join :
    (a.join b).isTainted x = true ↔ a.isTainted x = true ∨ b.isTainted x = true := by
  rw [isTainted_eq_true, isTainted_eq_true, isTainted_eq_true, mem_tainted_join]

/-- A covered local is one that is tainted and not live. -/
theorem CoversTainted.mem_sanitized_iff (h : s.CoversTainted) :
    x ∈ s.sanitized ↔ s.isTainted x = true ∧ s.isLive x = false := by
  rw [isTainted_eq_true, ← Bool.not_eq_true, isLive_eq_true]
  constructor
  · intro covered
    exact ⟨h x covered, fun live => live.2 covered⟩
  · rintro ⟨tainted, dead⟩
    by_contra free
    exact dead ⟨tainted, free⟩

/-- Two states are equal, as sets, if the same locals are tainted and the same are live. -/
theorem beq_iff_isLive (ha : a.CoversTainted) (hb : b.CoversTainted) :
    (a == b) = true ↔ (∀ x, a.isTainted x = b.isTainted x) ∧ ∀ x, a.isLive x = b.isLive x := by
  constructor
  · intro same
    refine ⟨fun x => ?_, isLive_of_beq same⟩
    rw [Bool.eq_iff_iff, isTainted_eq_true, isTainted_eq_true]
    exact (beq_iff.mp same).1 x
  · rintro ⟨tainted, live⟩
    refine beq_iff.mpr ⟨fun x => ?_, fun x => ?_⟩
    · rw [← isTainted_eq_true, ← isTainted_eq_true, tainted]
    · rw [ha.mem_sanitized_iff, hb.mem_sanitized_iff, tainted, live]

/-! ## Laws of the join -/

theorem join_assoc (a b c : FlowState) : (a.join b).join c = a.join (b.join c) := by
  have tainted : ((a.join b).join c).tainted = (a.join (b.join c)).tainted := by
    show (a.join b).tainted ++ c.tainted.filter (fun n => !(a.join b).tainted.contains n) =
      a.tainted ++ (b.join c).tainted.filter (fun n => !a.tainted.contains n)
    show (a.tainted ++ b.tainted.filter _) ++ c.tainted.filter _ =
      a.tainted ++ (b.tainted ++ c.tainted.filter _).filter _
    rw [List.filter_append, List.append_assoc, List.filter_filter]
    congr 2
    refine List.filter_congr fun x _ => ?_
    have known : x ∈ (a.join b).tainted ↔ x ∈ a.tainted ∨ x ∈ b.tainted := mem_tainted_join
    simp only [List.contains_eq_mem, known, Bool.decide_or, Bool.not_or]
  have sanitized : ((a.join b).join c).sanitized = (a.join (b.join c)).sanitized := by
    show ((a.join b).join c).tainted.filter (fun n => !(a.join b).isLive n && !c.isLive n) =
      (a.join (b.join c)).tainted.filter (fun n => !a.isLive n && !(b.join c).isLive n)
    rw [tainted]
    refine List.filter_congr fun x _ => ?_
    rw [isLive_join, isLive_join, Bool.not_or, Bool.not_or, Bool.and_assoc]
  cases h : (a.join b).join c
  cases h' : a.join (b.join c)
  rw [h, h'] at tainted sanitized
  exact congrArg₂ FlowState.mk tainted sanitized

theorem merge_none (a : Option FlowState) : merge a none = a := by
  cases a <;> rfl

theorem merge_assoc (a b c : Option FlowState) :
    merge (merge a b) c = merge a (merge b c) := by
  cases a with
  | none => rfl
  | some a =>
    cases b with
    | none => rfl
    | some b =>
      cases c with
      | none => rfl
      | some c => exact congrArg some (join_assoc a b c)

theorem join_comm (a b : FlowState) : (a.join b == b.join a) = true := by
  refine (beq_iff_isLive (coversTainted_join a b) (coversTainted_join b a)).mpr
    ⟨fun x => ?_, fun x => ?_⟩
  · rw [Bool.eq_iff_iff, isTainted_join, isTainted_join, or_comm]
  · rw [isLive_join, isLive_join, Bool.or_comm]

/-- What is joined with itself stays as it is. Without the premise it would lose what it covers
and does not taint. -/
theorem CoversTainted.join_self (h : a.CoversTainted) : (a.join a == a) = true := by
  refine (beq_iff_isLive (coversTainted_join a a) h).mpr ⟨fun x => ?_, fun x => ?_⟩
  · rw [Bool.eq_iff_iff, isTainted_join, or_self]
  · rw [isLive_join, Bool.or_self]

example : ((⟨[], ["f"]⟩ : FlowState).join ⟨[], ["f"]⟩ == ⟨[], ["f"]⟩) = false := by decide

/-- The join depends on the sets alone, and not on the lists that stand for them. -/
theorem join_congr (first : (a == a') = true) (second : (b == b') = true) :
    (a.join b == a'.join b') = true := by
  have tainted (x : String) : a.isTainted x = true ↔ a'.isTainted x = true := by
    rw [isTainted_eq_true, isTainted_eq_true]
    exact (beq_iff.mp first).1 x
  have tainted' (x : String) : b.isTainted x = true ↔ b'.isTainted x = true := by
    rw [isTainted_eq_true, isTainted_eq_true]
    exact (beq_iff.mp second).1 x
  refine (beq_iff_isLive (coversTainted_join a b) (coversTainted_join a' b')).mpr
    ⟨fun x => ?_, fun x => ?_⟩
  · rw [Bool.eq_iff_iff, isTainted_join, isTainted_join, tainted, tainted']
  · rw [isLive_join, isLive_join, isLive_of_beq first, isLive_of_beq second]

/-! ## States of a walk -/

/-- The states that can be made from the empty one. -/
inductive Reachable : FlowState → Prop where
  | empty : Reachable empty
  | taint {s : FlowState} (h : Reachable s) (name : String) : Reachable (s.taint name)
  | clear {s : FlowState} (h : Reachable s) (name : String) : Reachable (s.clear name)
  | assign {s : FlowState} (h : Reachable s) (name : String) (value : Bool) :
      Reachable (s.assign name value)
  | sanitize {s : FlowState} (h : Reachable s) (name : String) : Reachable (s.sanitize name)
  | join {a b : FlowState} (ha : Reachable a) (hb : Reachable b) : Reachable (a.join b)

theorem Within.mono {names more : List String} (h : s.Within names) (sub : names ⊆ more) :
    s.Within more :=
  ⟨fun x hx => sub (h.tainted x hx), h.sanitized⟩

/-- A state that is made in so many steps is one over the names that occur in them. -/
theorem Reachable.within (h : s.Reachable) : ∃ names, s.Within names := by
  have step {s : FlowState} (name : String) (value : Bool) (ih : ∃ names, s.Within names) :
      ∃ names, (s.assign name value).Within names := by
    obtain ⟨names, ih⟩ := ih
    have more := ih.mono (List.subset_cons_self name names)
    exact ⟨name :: names, more.assign List.mem_cons_self value⟩
  induction h with
  | empty => exact ⟨[], within_empty⟩
  | taint _ name ih => exact step name true ih
  | clear _ name ih => exact step name false ih
  | assign _ name value ih => exact step name value ih
  | sanitize _ name ih =>
    obtain ⟨names, ih⟩ := ih
    exact ⟨names, ih.sanitize name⟩
  | join _ _ iha ihb =>
    obtain ⟨names, iha⟩ := iha
    obtain ⟨names', ihb⟩ := ihb
    exact ⟨names ++ names', (iha.mono (List.subset_append_left ..)).join
      (ihb.mono (List.subset_append_right ..))⟩

theorem Reachable.coversTainted (h : s.Reachable) : s.CoversTainted := by
  obtain ⟨names, within⟩ := h.within
  exact within.sanitized

/-- What makes `join` the join of a semilattice and `merge` the same with one element more, said
of three states. States count as equal if they are so as sets. -/
structure JoinLaws (a b c : FlowState) : Prop where
  covers : ∀ x ∈ a.sanitized, x ∈ a.tainted
  closed : (a.join b).Reachable
  respects : ∀ a' b', (a == a') = true → (b == b') = true → (a.join b == a'.join b') = true
  assoc : ((a.join b).join c == a.join (b.join c)) = true
  comm : (a.join b == b.join a) = true
  idem : (a.join a == a) = true
  live : ∀ x, (a.join b).isLive x = true ↔ a.isLive x = true ∨ b.isLive x = true
  tainted : ∀ x, (a.join b).isTainted x = true ↔ a.isTainted x = true ∨ b.isTainted x = true
  merges : merge (some a) (some b) = some (a.join b)
  identity : ∀ o, merge none o = o ∧ merge o none = o

/-- The states of a walk are a semilattice under `join`. -/
theorem Reachable.joinLaws (ha : a.Reachable) (hb : b.Reachable) (_ : c.Reachable) :
    JoinLaws a b c where
  covers := ha.coversTainted
  closed := ha.join hb
  respects _ _ first second := join_congr first second
  assoc := by
    rw [join_assoc]
    exact beq_iff.mpr ⟨fun _ => Iff.rfl, fun _ => Iff.rfl⟩
  comm := join_comm a b
  idem := ha.coversTainted.join_self
  live x := by rw [isLive_join, Bool.or_eq_true]
  tainted x := isTainted_join
  merges := rfl
  identity o := ⟨rfl, merge_none o⟩

/-- A local that a guard has covered, the same local uncovered, and nothing. -/
theorem joinLaws_guarded :
    ((empty.taint "f").sanitize "f").Reachable ∧ (empty.taint "f").Reachable ∧ empty.Reachable ∧
      JoinLaws ((empty.taint "f").sanitize "f") (empty.taint "f") empty := by
  have tainted : (empty.taint "f").Reachable := Reachable.empty.taint "f"
  have covered := tainted.sanitize "f"
  exact ⟨covered, tainted, .empty, Reachable.joinLaws covered tainted .empty⟩

end JavaMend.FlowState
