import Mathlib.Data.List.Basic
import Mathlib.Data.List.Forall2
import Mathlib.Data.List.Nodup
import Mathlib.Data.List.Perm.Basic
import JavaMend.Settings.Document
import JavaMend.Proofs.Text.Ordered

/-!
# Values that are read back

What is written as a document and read again need not be the same node: a text may stand
in any style that keeps it a text, and the fields of a mapping in any order (`Yaml.Back`).
The readers of values do not see the difference. Each of them has a lemma that says what it
finds where a value was written.
-/

namespace JavaMend.Yaml

/-! ## Numbers -/

theorem digit?_digitChar {d : Nat} (small : d < 10) : digit? 10 d.digitChar = some d := by
  revert d
  decide

theorem foldlM_toDigits (n : Nat) : (Nat.toDigits 10 n).foldlM
    (fun value c => (digit? 10 c).map (value * 10 + ·)) 0 = some n := by
  induction n using Nat.strongRecOn with
  | ind n ih =>
    rw [Nat.toDigits_eq_if (by decide)]
    split
    · next small => simp [digit?_digitChar small]
    · next big =>
      have shorter : n / 10 < n := Nat.div_lt_self (by omega) (by decide)
      have digit := digit?_digitChar (Nat.mod_lt n (by decide : 10 > 0))
      rw [List.foldlM_append, ih _ shorter]
      simp [digit]
      omega

/-- No number but zero starts with a zero. -/
theorem toDigits_eq_cons (n : Nat) : ∃ first rest, Nat.toDigits 10 n = first :: rest ∧
    first.isDigit = true ∧ (first = '0' → n = 0) := by
  induction n using Nat.strongRecOn with
  | ind n ih =>
    rw [Nat.toDigits_eq_if (by decide)]
    split
    · next small =>
      have digit : n.digitChar.isDigit = true ∧ (n.digitChar = '0' → n = 0) := by
        clear ih
        revert n
        decide
      exact ⟨n.digitChar, [], rfl, digit⟩
    · next big =>
      have shorter : n / 10 < n := Nat.div_lt_self (by omega) (by decide)
      obtain ⟨first, rest, digits, isDigit, zero⟩ := ih _ shorter
      rw [digits]
      exact ⟨first, rest ++ [(n % 10).digitChar], rfl, isDigit, fun h => by have := zero h; omega⟩

theorem natOfWord?_toString (n : Nat) : natOfWord? (toString n) = some n := by
  cases n with
  | zero => decide
  | succ n =>
    have text : (toString (n + 1)).toList = Nat.toDigits 10 (n + 1) := Nat.toList_repr
    have value := foldlM_toDigits (n + 1)
    obtain ⟨first, rest, digits, isDigit, zero⟩ := toDigits_eq_cons (n + 1)
    have notZero : first ≠ '0' := fun h => Nat.succ_ne_zero n (zero h)
    have notSign : first ≠ '+' ∧ first ≠ '-' := by
      constructor <;> rintro rfl <;> exact absurd isDigit (by decide)
    rw [digits] at value
    rw [natOfWord?, text, digits]
    simp [magnitude?, isPaddedDigits, digits?, notSign, notZero, value]

/-! ## Nodes that are read back -/

mutual

/-- The nodes that may be read where a value was written. -/
inductive Back : Yaml → Yaml → Prop where
  | word (value : String) : Back (.scalar none .plain value) (word value)
  /-- Written plainly, a text must not look like something else. -/
  | text (style : ScalarStyle) {value : String} (clear : style = .plain → isAmbiguous value = false) :
      Back (.scalar none style value) (text value)
  | seq {read written : List Yaml} (items : BackItems read written) : Back (.seq read) (.seq written)
  | map {read written : List (Yaml × Yaml)} (fields : BackFields read written) :
      Back (.map read) (.map written)

/-- The items of a sequence, in their order. -/
inductive BackItems : List Yaml → List Yaml → Prop where
  | nil : BackItems [] []
  | cons {y y' : Yaml} {read written : List Yaml} (item : Back y y') (rest : BackItems read written) :
      BackItems (y :: read) (y' :: written)

/-- The fields of a mapping, in whatever order. -/
inductive BackFields : List (Yaml × Yaml) → List (Yaml × Yaml) → Prop where
  | nil : BackFields [] []
  | cons {key value key' value' : Yaml} {before after written : List (Yaml × Yaml)}
      (isKey : Back key key') (isValue : Back value value') (rest : BackFields (before ++ after) written) :
      BackFields (before ++ (key, value) :: after) ((key', value') :: written)

end

/-! ### A check -/

mutual

/-- Was a value read back, with the fields of mappings in the order they were written? -/
def isBack : Yaml → Yaml → Bool
  | .scalar none style value, .scalar none .plain value' => style == .plain && value == value'
  | .scalar none style value, .scalar none .single value' =>
    value == value' && (style != .plain || !isAmbiguous value)
  | .seq read, .seq written => areBack read written
  | .map read, .map written => fieldsAreBack read written
  | _, _ => false

def areBack : List Yaml → List Yaml → Bool
  | [], [] => true
  | y :: read, y' :: written => isBack y y' && areBack read written
  | _, _ => false

def fieldsAreBack : List (Yaml × Yaml) → List (Yaml × Yaml) → Bool
  | [], [] => true
  | (key, value) :: read, (key', value') :: written =>
    isBack key key' && isBack value value' && fieldsAreBack read written
  | _, _ => false

end

mutual

theorem back_of_isBack : {y y' : Yaml} → isBack y y' = true → Back y y'
  | .scalar none style value, .scalar none .plain value', h => by
    simp only [isBack, Bool.and_eq_true, beq_iff_eq] at h
    obtain ⟨rfl, rfl⟩ := h
    exact .word value
  | .scalar none style value, .scalar none .single value', h => by
    simp only [isBack, Bool.and_eq_true, Bool.or_eq_true, beq_iff_eq, bne_iff_ne, Bool.not_eq_true'] at h
    obtain ⟨rfl, clear⟩ := h
    exact .text style fun plain => clear.resolve_left fun other => other plain
  | .seq read, .seq written, h => .seq (backItems_of_areBack (by simpa only [isBack] using h))
  | .map read, .map written, h => .map (backFields_of_fieldsAreBack (by simpa only [isBack] using h))

theorem backItems_of_areBack : {read written : List Yaml} → areBack read written = true →
    BackItems read written
  | [], [], _ => .nil
  | y :: read, y' :: written, h => by
    simp only [areBack, Bool.and_eq_true] at h
    exact .cons (back_of_isBack h.1) (backItems_of_areBack h.2)

theorem backFields_of_fieldsAreBack : {read written : List (Yaml × Yaml)} →
    fieldsAreBack read written = true → BackFields read written
  | [], [], _ => .nil
  | (key, value) :: read, (key', value') :: written, h => by
    simp only [fieldsAreBack, Bool.and_eq_true] at h
    have rest : BackFields ([] ++ read) written := backFields_of_fieldsAreBack h.2
    exact .cons (back_of_isBack h.1.1) (back_of_isBack h.1.2) rest

end

namespace Back

variable {y : Yaml}

/-- There are no references in what is read back. -/
theorem follow {written : Yaml} (back : Back y written) : Decode.follow y = pure y := by
  cases back <;> rfl

theorem decode_text {value : String} (back : Back y (.text value)) : Decode.text y = pure value := by
  have followed := back.follow
  cases back
  simp [Decode.text, followed]

theorem decode_nat {bits n : Nat} (fits : n < 2 ^ bits) (back : Back y (ofNat n)) :
    Decode.nat bits y = pure n := by
  have followed := back.follow
  have number := natOfWord?_toString n
  rw [ofNat] at back
  generalize toString n = w at back number
  cases back
  simp [Decode.nat, followed, Decode.word?, number, fits]

theorem decode_bool {b : Bool} (back : Back y (ofBool b)) : Decode.bool y = pure b := by
  have followed := back.follow
  have word : boolOfWord? (toString b) = some b := by cases b <;> decide
  cases back
  simp [Decode.bool, followed, Decode.word?, word]

/-- What is something when it was written is something when it is read. -/
theorem decode_some {α : Type} {decode : Yaml → Decode α} {a : α} {written : Yaml} (back : Back y written)
    (something : ∀ w, written = Yaml.word w → (w.isEmpty || isNullWord w) = false)
    (decoded : decode y = pure a) : Decode.option decode y = pure (some a) := by
  have followed := back.follow
  have isNothing : Decode.isNothing? y = some false := by
    cases back with
    | word w => simpa [Decode.isNothing?] using something w rfl
    | text style clear =>
      cases style with
      | plain =>
        have clear := clear rfl
        simp only [isAmbiguous, Bool.or_eq_false_iff] at clear
        simp [Decode.isNothing?, clear]
      | single | double | literal | folded => rfl
    | seq | map => rfl
  simp [Decode.option, followed, isNothing, decoded]

theorem decode_null {α : Type} {decode : Yaml → Decode α} (back : Back y (Yaml.word "null")) :
    Decode.option decode y = pure none := by
  have followed := back.follow
  have null : isNullWord "null" = true := by decide
  cases back
  simp [Decode.option, followed, Decode.isNothing?, null]

theorem decode_texts {values : List String} (back : Back y (ofTexts values)) :
    Decode.texts y = pure values := by
  have followed := back.follow
  cases back with
  | @seq read _ items =>
    suffices each : read.mapM Decode.text = pure values by
      simp [Decode.texts, Decode.items, followed, each]
    clear followed
    induction values generalizing read with
    | nil =>
      cases items
      rfl
    | cons value values ih =>
      cases items with
      | cons item rest => simp [List.mapM_cons, item.decode_text, ih rest]

end Back

/-! ### Mappings -/

/-- Where fields were written, these are found, in some order. -/
def FoundFields (found written : List (String × Yaml)) : Prop :=
  ∃ sorted, found.Perm sorted ∧ List.Forall₂ (fun f g => f.1 = g.1 ∧ Back f.2 g.2) sorted written

/-- The fields of a mapping that have a value. -/
def present (fields : List (String × Option Yaml)) : List (String × Yaml) :=
  fields.filterMap fun (key, value) => value.map fun v => (key, v)

/-- The text of a key. -/
def keyText : Yaml → String
  | .scalar _ _ value => value
  | _ => ""

theorem Back.keyText {y : Yaml} {name : String} (back : Back y (Yaml.text name)) : keyText y = name := by
  cases back
  rfl

theorem mapM_fields {read : List (Yaml × Yaml)} (all : ∀ f ∈ read, ∃ name, Back f.1 (Yaml.text name)) :
    read.mapM (fun (key, value) => do return (← Decode.text key, value)) =
      (pure (read.map fun f => (keyText f.1, f.2)) : Decode _) := by
  induction read with
  | nil => rfl
  | cons f read ih =>
    rw [List.forall_mem_cons] at all
    obtain ⟨name, isKey⟩ := all.1
    have text : Decode.text f.1 = pure (keyText f.1) := by
      rw [isKey.decode_text, isKey.keyText]
    rw [List.mapM_cons, ih all.2]
    simp [text]

theorem foundFields {read : List (Yaml × Yaml)} {written : List (String × Yaml)}
    (fields : BackFields read (written.map fun f => (Yaml.text f.1, f.2))) :
    (∀ f ∈ read, ∃ name, Back f.1 (Yaml.text name)) ∧
      FoundFields (read.map fun f => (keyText f.1, f.2)) written := by
  induction written generalizing read with
  | nil =>
    cases fields
    exact ⟨nofun, [], .refl _, .nil⟩
  | cons g written ih =>
    generalize wrote : (g :: written).map (fun f => (Yaml.text f.1, f.2)) = wrote' at fields
    cases fields with
    | nil => cases wrote
    | @cons key value _ _ before after _ isKey isValue rest =>
      cases wrote
      obtain ⟨all, sorted, perm, each⟩ := ih rest
      constructor
      · intro f mem
        rcases List.mem_append.mp mem with mem | mem
        · exact all f (List.mem_append_left _ mem)
        · rcases List.mem_cons.mp mem with rfl | mem
          · exact ⟨_, isKey⟩
          · exact all f (List.mem_append_right _ mem)
      · refine ⟨(g.1, value) :: sorted, ?_, .cons ⟨rfl, isValue⟩ each⟩
        rw [List.map_append, List.map_cons, isKey.keyText]
        rw [List.map_append] at perm
        exact List.perm_middle.trans (perm.cons _)

theorem Back.decode_fields {y : Yaml} {fields : List (String × Option Yaml)} (back : Back y (ofFields fields)) :
    ∃ found, Decode.fields y = pure found ∧ FoundFields found (present fields) := by
  have followed := back.follow
  have written : ofFields fields = .map ((present fields).map fun f => (Yaml.text f.1, f.2)) := by
    simp only [ofFields, present, List.map_filterMap, Option.map_map]
    rfl
  rw [written] at back
  cases back with
  | map fields =>
    obtain ⟨all, found⟩ := foundFields fields
    refine ⟨_, ?_, found⟩
    rw [Decode.fields, followed, pure_bind]
    exact mapM_fields all

/-! ### Fields -/

section Present

variable {fields : List (String × Option Yaml)}

theorem present_names : ((present fields).map (·.1)).Sublist (fields.map (·.1)) := by
  induction fields with
  | nil => exact .refl _
  | cons f fields ih =>
    obtain ⟨key, value⟩ := f
    cases value with
    | none => simpa [present] using ih.cons key
    | some v => simpa [present] using ih.cons_cons key

theorem lookup_present (name : String) (distinct : (fields.map (·.1)).Nodup) :
    (present fields).lookup name = (fields.lookup name).join := by
  induction fields with
  | nil => rfl
  | cons f fields ih =>
    obtain ⟨key, value⟩ := f
    rw [List.map_cons, List.nodup_cons] at distinct
    cases value with
    | none =>
      have skipped : present ((key, none) :: fields) = present fields := rfl
      rw [skipped, ih distinct.2, List.lookup_cons]
      by_cases here : name = key
      · subst here
        simp [lookup_eq_none_of_not_mem distinct.1]
      · simp [here, beq_eq_decide]
    | some v =>
      have kept : present ((key, some v) :: fields) = (key, v) :: present fields := rfl
      rw [kept, List.lookup_cons, List.lookup_cons, ih distinct.2]
      by_cases here : name = key <;> simp [here, beq_eq_decide]

end Present

namespace FoundFields

variable {found written : List (String × Yaml)} {name : String}

theorem names (fields : FoundFields found written) :
    (found.map (·.1)).Perm (written.map (·.1)) := by
  obtain ⟨sorted, perm, each⟩ := fields
  have same : sorted.map (·.1) = written.map (·.1) := by
    clear perm
    induction each with
    | nil => rfl
    | cons both _ ih => simp [both.1, ih]
  exact same ▸ perm.map _

theorem lookup_some (fields : FoundFields found written) (distinct : (written.map (·.1)).Nodup)
    {y' : Yaml} (there : written.lookup name = some y') : ∃ y, found.lookup name = some y ∧ Back y y' := by
  obtain ⟨sorted, perm, each⟩ := id fields
  rw [lookup_eq_some_iff_mem distinct] at there
  have nodup := (fields.names.nodup_iff).mpr distinct
  have stands : ∃ y, (name, y) ∈ sorted ∧ Back y y' := by
    clear perm distinct fields nodup
    induction each with
    | nil => cases there
    | @cons f g _ _ both _ ih =>
      rcases List.mem_cons.mp there with rfl | there
      · exact ⟨f.2, List.mem_cons.mpr (.inl (Prod.ext both.1.symm rfl)), both.2⟩
      · obtain ⟨y, mem, back⟩ := ih there
        exact ⟨y, List.mem_cons_of_mem _ mem, back⟩
  obtain ⟨y, mem, back⟩ := stands
  exact ⟨y, (lookup_eq_some_iff_mem nodup).mpr (perm.mem_iff.mpr mem), back⟩

theorem lookup_none (fields : FoundFields found written) (missing : written.lookup name = none) :
    found.lookup name = none := by
  apply lookup_eq_none_of_not_mem
  rw [fields.names.mem_iff]
  intro mem
  obtain ⟨g, there, rfl⟩ := List.mem_map.mp mem
  simpa using List.lookup_eq_none_iff.mp missing g there

/-- A field that was written has the value that is read from what stands there, and a field
that was not has the other value. -/
theorem fieldOr {α β : Type} {fields : List (String × Option Yaml)} (isFound : FoundFields found (present fields))
    (distinct : (fields.map (·.1)).Nodup) {value : Option β} {write : β → Yaml} {decode : Yaml → Decode α}
    {meaning : β → α} {other : α} (field : fields.lookup name = some (value.map write))
    (decoded : ∀ b y, value = some b → Back y (write b) → decode y = pure (meaning b)) :
    Decode.fieldOr found name other decode = pure ((value.map meaning).getD other) := by
  have written := lookup_present name distinct
  rw [field] at written
  cases value with
  | none => simp [Decode.fieldOr, isFound.lookup_none written]
  | some b =>
    obtain ⟨y, there, back⟩ := isFound.lookup_some (distinct.sublist present_names) written
    simp [Decode.fieldOr, there, decoded b y rfl back]

theorem fieldOr_self {α : Type} {fields : List (String × Option Yaml)} (isFound : FoundFields found (present fields))
    (distinct : (fields.map (·.1)).Nodup) {value : Option α} {write : α → Yaml} {decode : Yaml → Decode α}
    {other : α} (field : fields.lookup name = some (value.map write))
    (decoded : ∀ a y, value = some a → Back y (write a) → decode y = pure a) :
    Decode.fieldOr found name other decode = pure (value.getD other) := by
  rw [isFound.fieldOr distinct field decoded, Option.map_id']

end FoundFields

/-- A mapping is read as a record where its fields differ and, if the record is closed, are
known. -/
theorem Back.decode_record {y : Yaml} {fields : List (String × Option Yaml)} (back : Back y (ofFields fields))
    (distinct : (fields.map (·.1)).Nodup) (known : List String) (closed : Bool)
    (inside : closed = true → ∀ name ∈ fields.map (·.1), name ∈ known) :
    ∃ found, Decode.record known closed y = pure found ∧ FoundFields found (present fields) := by
  obtain ⟨found, read, isFound⟩ := back.decode_fields
  have perm := isFound.names
  have once : known.any ((found.map (·.1)).count · > 1) = false := by
    simp only [List.any_eq_false, decide_eq_true_eq, not_lt]
    intro name _
    rw [perm.count_eq]
    exact List.nodup_iff_count_le_one.mp (distinct.sublist present_names) name
  have all : (closed && !(found.map (·.1)).all known.contains) = false := by
    cases closed with
    | false => rfl
    | true =>
      simp only [Bool.true_and, Bool.not_eq_false', List.all_eq_true]
      intro name mem
      rw [perm.mem_iff] at mem
      simpa using inside rfl name (present_names.subset mem)
  exact ⟨found, by simp only [Decode.record, read, pure_bind, once, all]; rfl, isFound⟩

end JavaMend.Yaml
