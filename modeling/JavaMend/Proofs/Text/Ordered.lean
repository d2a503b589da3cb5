import Mathlib.Data.List.Basic
import Mathlib.Data.List.Nodup
import Mathlib.Data.String.Basic
import JavaMend.Text.Ordered

/-!
# What ordered sets and tables hold

Sets are looked at through membership and tables through lookup, so that nothing else
has to know how they are kept. A table is in order if its keys ascend
(`KeysAscend`); entries that are added keep it so.
-/

namespace JavaMend

/-! ## Sets -/

@[simp] theorem mem_insertText {text t : String} {set : List String} :
    t ∈ insertText text set ↔ t = text ∨ t ∈ set := by
  induction set with
  | nil => simp [insertText]
  | cons s set ih =>
    rw [insertText]
    split
    · simp
    · split
      · next same => simp [same]
      · simp only [List.mem_cons, ih]
        exact or_left_comm

@[simp] theorem mem_orderedTexts {texts : List String} {t : String} :
    t ∈ orderedTexts texts ↔ t ∈ texts := by
  suffices all : ∀ set, t ∈ texts.foldl (fun set text => insertText text set) set ↔
      t ∈ texts ∨ t ∈ set by
    simpa [orderedTexts] using all []
  induction texts with
  | nil => simp
  | cons text texts ih =>
    intro set
    simp only [List.foldl_cons, ih, mem_insertText, List.mem_cons]
    exact or_left_comm.trans or_assoc.symm

/-! ## Tables -/

section Tables

variable {α : Type} {key other : String} {value : α} {table entries : List (String × α)}

theorem lookup_insertEntry : (insertEntry key value table).lookup other =
    if other = key then some value else table.lookup other := by
  induction table with
  | nil => by_cases same : other = key <;> simp [insertEntry, same]
  | cons entry table ih =>
    obtain ⟨k, v⟩ := entry
    rw [insertEntry]
    split
    · by_cases same : other = key <;> simp [List.lookup_cons, same, beq_eq_decide]
    · split
      · next equal =>
        subst equal
        by_cases same : other = key <;> simp [List.lookup_cons, same, beq_eq_decide]
      · next different =>
        by_cases here : other = k
        · simp [here, Ne.symm different]
        · simp [List.lookup_cons, here, ih, beq_eq_decide]

theorem lookup_eq_none_of_not_mem (absent : key ∉ table.map (·.1)) : table.lookup key = none := by
  apply List.lookup_eq_none_iff.mpr
  intro entry mem
  apply bne_iff_ne.mpr
  rintro rfl
  exact absent (List.mem_map_of_mem mem)

theorem lookup_eq_some_iff_mem (distinct : (table.map (·.1)).Nodup) :
    table.lookup key = some value ↔ (key, value) ∈ table := by
  induction table with
  | nil => simp
  | cons entry table ih =>
    obtain ⟨k, v⟩ := entry
    rw [List.map_cons, List.nodup_cons] at distinct
    by_cases here : key = k
    · subst here
      have absent : (key, value) ∉ table := fun mem =>
        distinct.1 (List.mem_map.mpr ⟨_, mem, rfl⟩)
      simp [absent, eq_comm]
    · simp [List.lookup_cons, beq_eq_decide, here, ih distinct.2]

/-- What is added for different keys is all there, and nothing else changes. -/
theorem lookup_foldl_insertEntry (distinct : (entries.map (·.1)).Nodup) :
    (entries.foldl (fun table entry => insertEntry entry.1 entry.2 table) table).lookup other =
      (entries.lookup other).or (table.lookup other) := by
  induction entries generalizing table with
  | nil => simp
  | cons entry entries ih =>
    rw [List.map_cons, List.nodup_cons] at distinct
    rw [List.foldl_cons, ih distinct.2, lookup_insertEntry, List.lookup_cons]
    by_cases here : other = entry.1
    · subst here
      simp [lookup_eq_none_of_not_mem distinct.1]
    · simp [here, beq_eq_decide]

theorem mem_insertEntry {entry : String × α} (mem : entry ∈ insertEntry key value table) :
    entry = (key, value) ∨ entry ∈ table := by
  induction table with
  | nil => exact .inl (List.mem_singleton.mp mem)
  | cons first table ih =>
    rw [insertEntry] at mem
    split at mem
    · exact List.mem_cons.mp mem
    · split at mem
      · exact (List.mem_cons.mp mem).imp id (List.mem_cons_of_mem _)
      · rcases List.mem_cons.mp mem with rfl | mem
        · exact .inr List.mem_cons_self
        · exact (ih mem).imp id (List.mem_cons_of_mem _)

/-- The keys of a table ascend. -/
def KeysAscend (table : List (String × α)) : Prop := table.Pairwise fun p q => p.1 < q.1

theorem KeysAscend.nodup (ascend : KeysAscend table) : (table.map (·.1)).Nodup := by
  rw [List.Nodup, List.pairwise_map]
  exact ascend.imp fun less => ne_of_lt less

theorem KeysAscend.insertEntry (ascend : KeysAscend table) :
    KeysAscend (insertEntry key value table) := by
  induction table with
  | nil => exact List.pairwise_singleton ..
  | cons first table ih =>
    obtain ⟨below, rest⟩ := List.pairwise_cons.mp ascend
    rw [JavaMend.insertEntry]
    split
    · next less =>
      apply List.pairwise_cons.mpr ⟨_, ascend⟩
      intro entry mem
      rcases List.mem_cons.mp mem with rfl | mem
      · exact less
      · exact less.trans (below entry mem)
    · next notLess =>
      split
      · next equal => exact List.pairwise_cons.mpr ⟨fun entry mem => equal ▸ below entry mem, rest⟩
      · next different =>
        apply List.pairwise_cons.mpr ⟨_, ih rest⟩
        intro entry mem
        rcases mem_insertEntry mem with rfl | mem
        · exact lt_of_le_of_ne (not_lt.mp notLess) (Ne.symm different)
        · exact below entry mem

/-- Tables in order that hold the same are the same. -/
theorem KeysAscend.ext (ascend : KeysAscend table) (ascend' : KeysAscend entries)
    (same : ∀ key, table.lookup key = entries.lookup key) : table = entries := by
  have perm : table.Perm entries := by
    apply (List.perm_ext_iff_of_nodup (.of_map _ ascend.nodup) (.of_map _ ascend'.nodup)).mpr
    rintro ⟨key, value⟩
    rw [← lookup_eq_some_iff_mem ascend.nodup, ← lookup_eq_some_iff_mem ascend'.nodup, same]
  exact perm.eq_of_pairwise (fun p q _ _ less more => (less.asymm more).elim) ascend ascend'

/-- The table of some entries. -/
def tableOf (entries : List (String × α)) : List (String × α) :=
  entries.foldl (fun table entry => insertEntry entry.1 entry.2 table) []

theorem ascend_tableOf : KeysAscend (tableOf entries) := by
  suffices all : ∀ table : List (String × α), KeysAscend table →
      KeysAscend (entries.foldl (fun table entry => insertEntry entry.1 entry.2 table) table) from
    all [] .nil
  induction entries with
  | nil => exact fun _ ascend => ascend
  | cons entry entries ih => exact fun table ascend => ih _ ascend.insertEntry

theorem lookup_tableOf (distinct : (entries.map (·.1)).Nodup) :
    (tableOf entries).lookup key = entries.lookup key := by
  rw [tableOf, lookup_foldl_insertEntry distinct, List.lookup_nil, Option.or_none]

theorem mem_tableOf {entry : String × α} (distinct : (entries.map (·.1)).Nodup) :
    entry ∈ tableOf entries ↔ entry ∈ entries := by
  rw [← lookup_eq_some_iff_mem ascend_tableOf.nodup, lookup_tableOf distinct, lookup_eq_some_iff_mem distinct]

theorem tableOf_eq_self (ascend : KeysAscend table) : tableOf table = table :=
  ascend_tableOf.ext ascend fun _ => lookup_tableOf ascend.nodup

theorem tableOf_perm {others : List (String × α)} (distinct : (entries.map (·.1)).Nodup)
    (perm : others.Perm entries) : tableOf others = tableOf entries := by
  have distinct' := ((perm.map (·.1)).nodup_iff).mpr distinct
  apply ascend_tableOf.ext ascend_tableOf
  intro key
  apply Option.ext
  intro value
  rw [lookup_tableOf distinct, lookup_tableOf distinct', lookup_eq_some_iff_mem distinct,
    lookup_eq_some_iff_mem distinct', perm.mem_iff]

end Tables

end JavaMend
