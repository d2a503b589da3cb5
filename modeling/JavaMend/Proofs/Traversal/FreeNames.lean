import JavaMend.Traversal.Scope
import Mathlib.Data.Finset.Card
import Mathlib.Data.PFun
import Mathlib.Order.Bounds.Basic
import Mathlib.Order.Interval.Finset.Nat
import Std.Data.String.ToInt

/-!
# Names that are free

The search for a free name tries a base name, and then the base with 1, 2, … behind it, for as
long as it takes. It counts in signed numbers of 32 bits (`seekFreeName`), so what it comes to
past the largest of them is not the next name: a build that checks for overflow stops there, and
one that does not goes on with the least negative number.

The names it tries in vain are distinct and all taken. So it ends on the base with the least
number that makes it free, which is at most the number of names taken, exactly if the counter
gives out that number (`seekFreeName_isLeast`): with less than 2147483647 names taken it always
does. The repairs use the search whose counter has no bound (`leastFreeName`), which is given as
many tries as there are names taken. The two end on the same name, for as long as there is one.
-/

namespace JavaMend

/-- What a build of the program does where a counter goes past its largest number. -/
inductive Overflow where
  | stops
  | wraps
deriving DecidableEq, Repr

/-- The last number that a counter gives out on its way up. It counts on before it gives a number
out, so a build that stops at an overflow never gives out the largest one. -/
def Overflow.last : Overflow → Nat
  | stops => 2147483646
  | wraps => 2147483647

/-- One try, with the counter at `k`: the base with `k` behind it, or the number to try next if
that name is taken. There is no name (`none`) where the program stops. -/
def trySuffix (overflow : Overflow) (base : String) (taken : List String) (k : Int32) :
    Option String ⊕ Int32 :=
  if overflow = .stops ∧ k = Int32.maxValue then .inl none
  else
    let candidate := base ++ toString k
    if taken.contains candidate then .inr (k + 1) else .inl (some candidate)

/-- The first of `base ++ k`, `base ++ (k + 1)`, … that is not taken, for as long as it takes to
find it. -/
def seekSuffix (overflow : Overflow) (base : String) (taken : List String) :
    Int32 →. Option String :=
  (PFun.lift (trySuffix overflow base taken)).fix

/-- `base` if it is free, else `base` with the first number behind it that makes it so. -/
def seekFreeName (overflow : Overflow) (base : String) (taken : List String) :
    Part (Option String) :=
  if taken.contains base then seekSuffix overflow base taken 1 else Part.some (some base)

variable {overflow : Overflow} {base : String} {taken : List String} {k n : Nat}

/-! ## Numbered names -/

/-- Two numbers are not written alike. -/
theorem append_toString_injective (base : String) :
    Function.Injective fun n : Nat => base ++ toString n :=
  fun _ _ same => Nat.repr_injective ((String.append_right_inj base).mp same)

theorem append_toString_ne (base : String) (n : Nat) : base ++ toString n ≠ base :=
  fun same => Nat.repr_ne_empty (String.append_eq_left_iff.mp same)

/-- No more numbers are tried in vain than there are names taken beside the base. -/
theorem le_card_of_tried (inside : base ∈ taken) (pos : 1 ≤ n)
    (tried : ∀ i, 1 ≤ i → i < n → base ++ toString i ∈ taken) : n ≤ taken.toFinset.card := by
  let numbered := (Finset.Ico 1 n).image fun i => base ++ toString i
  have among : insert base numbered ⊆ taken.toFinset := by
    intro name mem
    rw [List.mem_toFinset]
    rcases Finset.mem_insert.mp mem with rfl | mem
    · exact inside
    · obtain ⟨i, bounds, rfl⟩ := Finset.mem_image.mp mem
      obtain ⟨least, less⟩ := Finset.mem_Ico.mp bounds
      exact tried i least less
  have apart : base ∉ numbered := by
    intro mem
    obtain ⟨i, -, same⟩ := Finset.mem_image.mp mem
    exact append_toString_ne base i same
  have size : (insert base numbered).card = n := by
    rw [Finset.card_insert_of_notMem apart,
      Finset.card_image_of_injective _ (append_toString_injective base), Nat.card_Ico]
    omega
  exact size ▸ Finset.card_le_card among

/-! ## The search -/

/-- A search that stands at `k` comes to `n`: every name it tries on the way is taken. -/
inductive ComesTo (base : String) (taken : List String) : Nat → Nat → Prop where
  | here (k : Nat) : ComesTo base taken k k
  | next {k n : Nat} (tried : base ++ toString k ∈ taken) (more : ComesTo base taken (k + 1) n) :
      ComesTo base taken k n

theorem ComesTo.le (comes : ComesTo base taken k n) : k ≤ n := by
  induction comes with
  | here k => exact Nat.le_refl k
  | next tried more ih => exact Nat.le_of_succ_le ih

theorem ComesTo.tried (comes : ComesTo base taken k n) :
    ∀ i, k ≤ i → i < n → base ++ toString i ∈ taken := by
  induction comes with
  | here k => exact fun i least less => absurd least (Nat.not_le_of_gt less)
  | next tried more ih =>
    intro i least less
    rcases Nat.eq_or_lt_of_le least with rfl | least
    · exact tried
    · exact ih i least less

theorem ComesTo.upTo {m : Nat} (comes : ComesTo base taken k n) (least : k ≤ m) (bound : m ≤ n) :
    ComesTo base taken k m := by
  induction comes with
  | here k => exact Nat.le_antisymm least bound ▸ .here k
  | next tried more ih =>
    rcases Nat.eq_or_lt_of_le least with rfl | least
    · exact .here _
    · exact .next tried (ih least bound)

/-- The bounded search ends on a name that is free, unless it has come to its bound. -/
theorem freeSuffix_comesTo (base : String) (taken : List String) (k fuel : Nat) :
    ∃ n, ComesTo base taken k n ∧ freeSuffix base taken k fuel = base ++ toString n ∧
      (base ++ toString n ∈ taken → n = k + fuel) := by
  induction fuel generalizing k with
  | zero => exact ⟨k, .here k, rfl, fun _ => rfl⟩
  | succ fuel ih =>
    rw [freeSuffix]
    split
    next tried =>
      obtain ⟨n, comes, ends, last⟩ := ih (k + 1)
      exact ⟨n, .next (List.contains_iff_mem.mp tried) comes, ends,
        fun mem => (last mem).trans (Nat.succ_add_eq_add_succ k fuel)⟩
    next free =>
      exact ⟨k, .here k, rfl, fun mem => absurd (List.contains_iff_mem.mpr mem) free⟩

/-- Where the base is taken, the search comes to a free name, and to no more numbers than there
are names taken. -/
theorem leastFreeName_comesTo (inside : base ∈ taken) :
    ∃ n, ComesTo base taken 1 n ∧ leastFreeName base taken = base ++ toString n ∧
      n ≤ taken.toFinset.card ∧ base ++ toString n ∉ taken := by
  obtain ⟨n, comes, ends, last⟩ := freeSuffix_comesTo base taken 1 taken.length
  have few := le_card_of_tried inside comes.le comes.tried
  refine ⟨n, comes, ?_, few, fun mem => ?_⟩
  · rw [leastFreeName, if_pos (List.contains_iff_mem.mpr inside), ends]
  · have bound := last mem
    have distinct := taken.toFinset_card_le
    omega

/-! ## The least free name -/

theorem leastFreeName_of_free (free : base ∉ taken) : leastFreeName base taken = base :=
  if_neg fun mem => free (List.contains_iff_mem.mp mem)

/-- The least free name is not taken. -/
theorem leastFreeName_not_mem (base : String) (taken : List String) :
    leastFreeName base taken ∉ taken := by
  by_cases inside : base ∈ taken
  · obtain ⟨n, -, ends, -, free⟩ := leastFreeName_comesTo inside
    exact ends ▸ free
  · rwa [leastFreeName_of_free inside]

theorem leastFreeName_eq_append (base : String) (taken : List String) :
    ∃ suffix, leastFreeName base taken = base ++ suffix := by
  by_cases inside : base ∈ taken
  · obtain ⟨n, -, ends, -⟩ := leastFreeName_comesTo inside
    exact ⟨_, ends⟩
  · exact ⟨"", (leastFreeName_of_free inside).trans String.append_empty.symm⟩

/-- Names that end in digits of their own are no obstacle. -/
example : leastFreeName "f1" ["f1", "f11", "f", "f13", "f11"] = "f12" := by decide +kernel

/-! ## The search that counts in 32 bits -/

theorem Overflow.last_le (overflow : Overflow) : overflow.last ≤ 2147483647 := by
  cases overflow <;> decide

theorem toString_counter (bound : k ≤ 2147483647) : toString (Int32.ofNat k) = toString k :=
  congrArg toString (Int32.toInt_ofNat_of_lt (Nat.lt_succ_of_le bound))

/-- The counter stands at its largest number after 2147483647 steps from nothing. -/
theorem counter_eq_maxValue_iff (bound : k ≤ 2147483647) :
    Int32.ofNat k = Int32.maxValue ↔ k = 2147483647 := by
  rw [← Int32.toInt_inj, Int32.toInt_ofNat_of_lt (Nat.lt_succ_of_le bound), Int32.toInt_maxValue]
  omega

theorem trySuffix_of_le (bound : k ≤ overflow.last) :
    trySuffix overflow base taken (.ofNat k) =
      if taken.contains (base ++ toString k) then .inr (.ofNat (k + 1))
      else .inl (some (base ++ toString k)) := by
  have small : k ≤ 2147483647 := bound.trans overflow.last_le
  have counts : ¬(overflow = .stops ∧ Int32.ofNat k = Int32.maxValue) := by
    rintro ⟨rfl, last⟩
    have : k ≤ 2147483646 := bound
    have := (counter_eq_maxValue_iff small).mp last
    omega
  simp only [trySuffix, if_neg counts, toString_counter small, Int32.ofNat_add]
  rfl

/-- Up to a number that the counter comes to, the search counts on. -/
theorem ComesTo.seekSuffix_eq (comes : ComesTo base taken k n) (bound : n ≤ overflow.last + 1) :
    seekSuffix overflow base taken (.ofNat k) = seekSuffix overflow base taken (.ofNat n) := by
  induction comes with
  | here k => rfl
  | @next k n tried more ih =>
    have goesOn : trySuffix overflow base taken (.ofNat k) = .inr (.ofNat (k + 1)) := by
      rw [trySuffix_of_le (by have := more.le; omega), if_pos (List.contains_iff_mem.mpr tried)]
    have next : .inr (Int32.ofNat (k + 1)) ∈
        PFun.lift (trySuffix overflow base taken) (.ofNat k) := goesOn ▸ Part.mem_some _
    exact (PFun.fix_fwd_eq next).trans (ih bound)

/-- The search ends on a free name that the counter comes to. -/
theorem seekSuffix_of_free (bound : n ≤ overflow.last) (free : base ++ toString n ∉ taken) :
    seekSuffix overflow base taken (.ofNat n) = Part.some (some (base ++ toString n)) := by
  have stops : trySuffix overflow base taken (.ofNat n) = .inl (some (base ++ toString n)) := by
    rw [trySuffix_of_le bound, if_neg fun mem => free (List.contains_iff_mem.mp mem)]
  exact Part.eq_some_iff.mpr (PFun.fix_stop (stops ▸ Part.mem_some _))

/-- With no more names taken than the counter gives out, the two searches end on one name. -/
theorem seekFreeName_of_few (few : taken.toFinset.card ≤ overflow.last) :
    seekFreeName overflow base taken = Part.some (some (leastFreeName base taken)) := by
  rw [seekFreeName]
  split
  next inside =>
    obtain ⟨k, comes, ends, bound, free⟩ :=
      leastFreeName_comesTo (List.contains_iff_mem.mp inside)
    have bound := bound.trans few
    exact ends ▸ (comes.seekSuffix_eq (Nat.le_succ_of_le bound)).trans
      (seekSuffix_of_free bound free)
  next free => rw [leastFreeName_of_free fun mem => free (List.contains_iff_mem.mpr mem)]

end JavaMend
