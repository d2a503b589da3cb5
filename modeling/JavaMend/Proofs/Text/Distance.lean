import JavaMend.Error
import Mathlib.Data.Set.Basic
import Mathlib.Order.Bounds.Defs
import Mathlib.Order.MinMax

/-!
# Edits and nearest texts

The edit distance is the least number of edits of one character each that turn one text into
the other (`editDistance_isLeast`), and the name that is suggested for another one is the
first that is nearest to it (`editDistance_isLeast_and_suggestion_nearest`).

A row of distances follows the beginnings of a text, so what is behind the rows,
`leastEdits`, reads both texts backwards. It is reached by edits at the end of the texts. That
no fewer do is a matter of a single edit, wherever it is made: by an edit of one text its
distance from any other text falls by one at most (`Edit.leastEdits_le`).
-/

namespace JavaMend

/-! ## Edits -/

/-- One character is inserted, deleted or replaced. -/
inductive Edit : List Char → List Char → Prop where
  | insert (front back : List Char) (c : Char) : Edit (front ++ back) (front ++ c :: back)
  | delete (front back : List Char) (c : Char) : Edit (front ++ c :: back) (front ++ back)
  | replace (front back : List Char) (c d : Char) : Edit (front ++ c :: back) (front ++ d :: back)

/-- So many edits, one after the other, turn a text into another. -/
inductive Edits : Nat → List Char → List Char → Prop where
  | none (s : List Char) : Edits 0 s s
  | more {n : Nat} {s t u : List Char} (edit : Edit s t) (rest : Edits n t u) : Edits (n + 1) s u

variable {n : Nat} {s t u : List Char} {c d : Char}

theorem Edit.cons (edit : Edit s t) (c : Char) : Edit (c :: s) (c :: t) := by
  cases edit with
  | insert front back d => exact .insert (c :: front) back d
  | delete front back d => exact .delete (c :: front) back d
  | replace front back d e => exact .replace (c :: front) back d e

theorem Edit.reverse (edit : Edit s t) : Edit s.reverse t.reverse := by
  cases edit with
  | insert front back c =>
    simpa using Edit.insert back.reverse front.reverse c
  | delete front back c =>
    simpa using Edit.delete back.reverse front.reverse c
  | replace front back c d =>
    simpa using Edit.replace back.reverse front.reverse c d

namespace Edits

theorem cons (edits : Edits n s t) (c : Char) : Edits n (c :: s) (c :: t) := by
  induction edits with
  | none s => exact .none (c :: s)
  | more edit _ ih => exact .more (edit.cons c) ih

theorem reverse (edits : Edits n s t) : Edits n s.reverse t.reverse := by
  induction edits with
  | none s => exact .none s.reverse
  | more edit _ ih => exact .more edit.reverse ih

theorem reverse_iff : Edits n s.reverse t.reverse ↔ Edits n s t :=
  ⟨fun edits => by simpa using edits.reverse, reverse⟩

end Edits

/-! ## The distance behind the rows -/

/-- The edits between two texts that are made at their fronts, at least. -/
def leastEdits : List Char → List Char → Nat
  | [], t => t.length
  | c :: s, [] => (c :: s).length
  | c :: s, d :: t =>
    min (min (leastEdits s (d :: t) + 1) (leastEdits (c :: s) t + 1))
      (leastEdits s t + if c = d then 0 else 1)

theorem nil_leastEdits (t : List Char) : leastEdits [] t = t.length := by
  rw [leastEdits]

theorem leastEdits_nil (s : List Char) : leastEdits s [] = s.length := by
  cases s <;> rw [leastEdits]

theorem leastEdits_cons_cons (c d : Char) (s t : List Char) :
    leastEdits (c :: s) (d :: t) =
      min (min (leastEdits s (d :: t) + 1) (leastEdits (c :: s) t + 1))
        (leastEdits s t + if c = d then 0 else 1) := by
  rw [leastEdits]

/-- What it takes to get from one text to the other at most. -/
theorem leastEdits_cons_le :
    leastEdits (c :: s) (d :: t) ≤ leastEdits s (d :: t) + 1 ∧
      leastEdits (c :: s) (d :: t) ≤ leastEdits (c :: s) t + 1 ∧
        leastEdits (c :: s) (d :: t) ≤ leastEdits s t + 1 := by
  rw [leastEdits_cons_cons]
  split <;> omega

theorem edits_leastEdits (s t : List Char) : Edits (leastEdits s t) s t := by
  fun_induction leastEdits s t with
  | case1 t =>
    induction t with
    | nil => exact .none []
    | cons d t ih => exact .more (.insert [] [] d) (ih.cons d)
  | case2 c s =>
    induction s generalizing c with
    | nil => exact .more (.delete [] [] c) (.none [])
    | cons c' s ih => exact .more (.delete [] (c' :: s) c) (ih c')
  | case3 c s d t deleted inserted replaced =>
    have delete : Edits (leastEdits s (d :: t) + 1) (c :: s) (d :: t) := .more (.delete [] s c) deleted
    have insert : Edits (leastEdits (c :: s) t + 1) (c :: s) (d :: t) :=
      .more (.insert [] (c :: s) d) (inserted.cons d)
    have replace : Edits (leastEdits s t + if c = d then 0 else 1) (c :: s) (d :: t) := by
      split
      next same =>
        subst same
        exact replaced.cons c
      next => exact .more (.replace [] s c d) (replaced.cons d)
    exact min_rec' (fun n => Edits n (c :: s) (d :: t))
      (min_rec' (fun n => Edits n (c :: s) (d :: t)) delete insert) replace

/-! ## One edit -/

theorem leastEdits_cons_right (s t : List Char) (d : Char) :
    leastEdits s (d :: t) ≤ leastEdits s t + 1 := by
  cases s with
  | nil => rw [nil_leastEdits, nil_leastEdits, List.length_cons]
  | cons c s => exact leastEdits_cons_le.2.1

theorem leastEdits_cons_left (s t : List Char) (c : Char) :
    leastEdits (c :: s) t ≤ leastEdits s t + 1 := by
  cases t with
  | nil => rw [leastEdits_nil, leastEdits_nil, List.length_cons]
  | cons d t => exact leastEdits_cons_le.1

theorem leastEdits_tail (s t : List Char) (c : Char) :
    leastEdits s t ≤ leastEdits (c :: s) t + 1 := by
  induction t with
  | nil =>
    rw [leastEdits_nil, leastEdits_nil, List.length_cons]
    omega
  | cons d t ih =>
    have grown := leastEdits_cons_right s t d
    rw [leastEdits_cons_cons]
    omega

theorem leastEdits_head (s t : List Char) (c d : Char) :
    leastEdits (c :: s) t ≤ leastEdits (d :: s) t + 1 := by
  induction t with
  | nil =>
    rw [leastEdits_nil, leastEdits_nil]
    exact Nat.le_succ _
  | cons e t ih =>
    obtain ⟨deleted, inserted, replaced⟩ := @leastEdits_cons_le s t c e
    rw [leastEdits_cons_cons d e]
    omega

/-- What one edit makes nearer at most, one character further back. -/
theorem leastEdits_behind (near : ∀ t, leastEdits s t ≤ leastEdits u t + 1) (c : Char)
    (t : List Char) : leastEdits (c :: s) t ≤ leastEdits (c :: u) t + 1 := by
  induction t with
  | nil =>
    have lengths := near []
    rw [leastEdits_nil, leastEdits_nil] at lengths ⊢
    exact Nat.succ_le_succ lengths
  | cons d t ih =>
    have deleted := near (d :: t)
    have replaced := near t
    rw [leastEdits_cons_cons, leastEdits_cons_cons]
    omega

/-- One edit of a text makes it nearer to another text by one at most. -/
theorem Edit.leastEdits_le (edit : Edit s u) (t : List Char) :
    leastEdits s t ≤ leastEdits u t + 1 := by
  have inFront (front : List Char) {s u : List Char} (near : ∀ t, leastEdits s t ≤ leastEdits u t + 1) :
      ∀ t, leastEdits (front ++ s) t ≤ leastEdits (front ++ u) t + 1 := by
    induction front with
    | nil => exact near
    | cons c front ih => exact leastEdits_behind ih c
  cases edit with
  | insert front back c => exact inFront front (leastEdits_tail back · c) t
  | delete front back c => exact inFront front (leastEdits_cons_left back · c) t
  | replace front back c d => exact inFront front (leastEdits_head back · c d) t

theorem leastEdits_self (s : List Char) : leastEdits s s = 0 := by
  induction s with
  | nil => rw [leastEdits_nil, List.length_nil]
  | cons c s ih =>
    rw [leastEdits_cons_cons, ih, if_pos rfl]
    exact Nat.min_zero _

theorem Edits.leastEdits_le (edits : Edits n s t) : leastEdits s t ≤ n := by
  induction edits with
  | none s => exact Nat.le_of_eq (leastEdits_self s)
  | more edit _ ih => exact Nat.le_trans (edit.leastEdits_le _) (Nat.succ_le_succ ih)

/-! ## Rows -/

/-- The distances of `s` from a text that grows at its front: from `seen`, and from what it
becomes with each character of `rest`. -/
def distancesFrom (s : List Char) : List Char → List Char → List Nat
  | seen, [] => [leastEdits s seen]
  | seen, d :: rest => leastEdits s seen :: distancesFrom s (d :: seen) rest

theorem distancesFrom_eq (s seen rest : List Char) :
    distancesFrom s seen rest = leastEdits s seen :: (distancesFrom s seen rest).tail := by
  cases rest <;> rfl

/-- A row for one more character is computed from the row above it. -/
theorem editRow_eq (c : Char) (s seen rest : List Char) :
    editRow c (leastEdits (c :: s) seen) (distancesFrom s seen rest) rest =
      (distancesFrom (c :: s) seen rest).tail := by
  induction rest generalizing seen with
  | nil => rfl
  | cons d rest ih =>
    have above : distancesFrom s seen (d :: rest) =
        leastEdits s seen :: leastEdits s (d :: seen) :: (distancesFrom s (d :: seen) rest).tail := by
      rw [distancesFrom, ← distancesFrom_eq]
    have next : (distancesFrom (c :: s) seen (d :: rest)).tail =
        leastEdits (c :: s) (d :: seen) :: (distancesFrom (c :: s) (d :: seen) rest).tail :=
      distancesFrom_eq _ _ _
    rw [above, next, editRow, ← ih (d :: seen), ← distancesFrom_eq, leastEdits_cons_cons]

theorem editRows_eq (target source s : List Char) :
    editRows target s.length (distancesFrom s [] target) source =
      distancesFrom (source.reverse ++ s) [] target := by
  induction source generalizing s with
  | nil => rfl
  | cons c source ih =>
    have row : (s.length + 1) :: editRow c (s.length + 1) (distancesFrom s [] target) target =
        distancesFrom (c :: s) [] target := by
      rw [distancesFrom_eq (c :: s), ← editRow_eq, leastEdits_nil, List.length_cons]
    rw [editRows, row, List.reverse_cons, List.append_assoc]
    exact ih (c :: s)

theorem distancesFrom_nil (seen rest : List Char) :
    distancesFrom [] seen rest = List.range' seen.length (rest.length + 1) := by
  induction rest generalizing seen with
  | nil =>
    rw [distancesFrom, nil_leastEdits]
    rfl
  | cons d rest ih =>
    rw [distancesFrom, ih, nil_leastEdits]
    rfl

theorem getLast?_distancesFrom (s seen rest : List Char) :
    (distancesFrom s seen rest).getLast? = some (leastEdits s (rest.reverse ++ seen)) := by
  induction rest generalizing seen with
  | nil => rfl
  | cons d rest ih =>
    rw [distancesFrom, distancesFrom_eq, List.getLast?_cons_cons, ← distancesFrom_eq, ih,
      List.reverse_cons, List.append_assoc]
    rfl

theorem editDistance_eq (a b : String) :
    editDistance a b = leastEdits a.toList.reverse b.toList.reverse := by
  have first : List.range (b.toList.length + 1) = distancesFrom [] [] b.toList := by
    rw [distancesFrom_nil, List.range_eq_range']
    rfl
  have last : editRows b.toList 0 (List.range (b.toList.length + 1)) a.toList =
      distancesFrom a.toList.reverse [] b.toList := by
    rw [first]
    exact (editRows_eq b.toList a.toList []).trans (by rw [List.append_nil])
  have reads : editDistance a b =
      ((editRows b.toList 0 (List.range (b.toList.length + 1)) a.toList).getLast?).getD 0 := rfl
  rw [reads, last, getLast?_distancesFrom, List.append_nil, Option.getD_some]

/-- The edit distance is the least number of edits. -/
theorem editDistance_isLeast (a b : String) :
    IsLeast {n | Edits n a.toList b.toList} (editDistance a b) := by
  rw [editDistance_eq]
  constructor
  · exact Edits.reverse_iff.mp (edits_leastEdits _ _)
  · intro n edits
    exact edits.reverse.leastEdits_le

example : editDistance "kitten" "sitting" = 3 := by cbv

/-! ## Nearest texts -/

/-- The first of the texts from which no other is nearer to `target`. -/
def IsNearest (target nearest : String) (texts : List String) : Prop :=
  ∃ front back, texts = front ++ nearest :: back ∧
    (∀ t ∈ front, editDistance target nearest < editDistance target t) ∧
      ∀ t ∈ back, editDistance target nearest ≤ editDistance target t

variable {target text nearest : String} {texts : List String}

theorem IsNearest.le (h : IsNearest target nearest texts) (mem : text ∈ texts) :
    editDistance target nearest ≤ editDistance target text := by
  obtain ⟨front, back, rfl, before, after⟩ := h
  rcases List.mem_append.mp mem with mem | mem
  · exact Nat.le_of_lt (before text mem)
  · rcases List.mem_cons.mp mem with rfl | mem
    · exact Nat.le_refl _
    · exact after text mem

/-- A text in front that is farther away is not the nearest. -/
theorem IsNearest.cons (h : IsNearest target nearest texts)
    (farther : editDistance target nearest < editDistance target text) :
    IsNearest target nearest (text :: texts) := by
  obtain ⟨front, back, rfl, before, after⟩ := h
  exact ⟨text :: front, back, rfl, List.forall_mem_cons.mpr ⟨farther, before⟩, after⟩

/-- A text that is no nearer than one in front of it is not the first of the nearest. -/
theorem IsNearest.insert {first : String} (h : IsNearest target nearest (first :: texts))
    (farther : editDistance target first ≤ editDistance target text) :
    IsNearest target nearest (first :: text :: texts) := by
  obtain ⟨front, back, split, before, after⟩ := h
  cases front with
  | nil =>
    obtain ⟨rfl, rfl⟩ := List.cons.inj split
    exact ⟨[], text :: texts, rfl, nofun, List.forall_mem_cons.mpr ⟨farther, after⟩⟩
  | cons other front =>
    obtain ⟨rfl, rfl⟩ := List.cons.inj split
    have nearer := before first List.mem_cons_self
    refine ⟨first :: text :: front, back, rfl, ?_, after⟩
    intro t mem
    rcases List.mem_cons.mp mem with rfl | mem
    · exact nearer
    · rcases List.mem_cons.mp mem with rfl | mem
      · exact Nat.lt_of_lt_of_le nearer farther
      · exact before t (List.mem_cons_of_mem _ mem)

/-- What the search for the nearest text keeps is the first of the nearest so far. -/
theorem foldl_nearer (target old : String) (texts : List String) :
    ∃ nearest, texts.foldl (nearestText?.nearer target) (some (old, editDistance target old)) =
        some (nearest, editDistance target nearest) ∧ IsNearest target nearest (old :: texts) := by
  induction texts generalizing old with
  | nil => exact ⟨old, rfl, [], [], rfl, nofun, nofun⟩
  | cons text texts ih =>
    rw [List.foldl_cons]
    by_cases nearer : editDistance target text < editDistance target old
    · obtain ⟨nearest, found, isNearest⟩ := ih text
      refine ⟨nearest, ?_, isNearest.cons ?_⟩
      · rw [← found]
        simp only [nearestText?.nearer, if_pos nearer]
      · exact Nat.lt_of_le_of_lt (isNearest.le List.mem_cons_self) nearer
    · obtain ⟨nearest, found, isNearest⟩ := ih old
      refine ⟨nearest, ?_, isNearest.insert (Nat.le_of_not_lt nearer)⟩
      rw [← found]
      simp only [nearestText?.nearer, if_neg nearer]

/-- Distances count edits, and of the names that are known the first of the nearest is
suggested. -/
theorem editDistance_isLeast_and_suggestion_nearest (a b id first : String) (rest : List String) :
    IsLeast {n | Edits n a.toList b.toList} (editDistance a b) ∧
      ∃ nearest, IsNearest id nearest (first :: rest) ∧
        suggestion id (first :: rest) = "Did you mean '" ++ nearest ++ "'?" := by
  refine ⟨editDistance_isLeast a b, ?_⟩
  obtain ⟨nearest, found, isNearest⟩ := foldl_nearer id first rest
  refine ⟨nearest, isNearest, ?_⟩
  have named : nearestText? id (first :: rest) = some nearest := by
    rw [nearestText?, List.foldl_cons]
    exact congrArg (Option.map (·.1)) found
  rw [suggestion, named]
  rfl

end JavaMend
