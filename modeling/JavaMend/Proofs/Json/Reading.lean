import Mathlib.Data.List.Basic
import Mathlib.Data.List.TakeWhile
import JavaMend.Json.Parser
import JavaMend.Json.Printer

/-!
# What is written is read

A value that is written over several lines is read back as itself
(`Json.parse?_pretty`), if it is not nested too deep. The values in question are made of
texts, switches, arrays and objects (`Json.Fits`); numbers are left aside.

Readers answer what follows the value, and the writer is quoted with whatever follows:
so the lemma on a value is the one that is needed for each item of an array and for each
field of an object. The fuel of a reader is counted against the length of the text.
-/

namespace JavaMend.Json

variable {cs gap rest : List Char}

/-! ## Blanks -/

theorem skipBlanks_append (blank : ∀ c ∈ gap, isBlank c = true) (cs : List Char) :
    skipBlanks (gap ++ cs) = skipBlanks cs := by
  rw [skipBlanks, skipBlanks, List.dropWhile_append_of_pos blank]

theorem skipBlanks_cons {c : Char} (visible : isBlank c = false) (cs : List Char) :
    skipBlanks (c :: cs) = c :: cs := by
  simp [skipBlanks, visible]

theorem isBlank_newLine (level : Nat) : ∀ c ∈ (newLine level).toList, isBlank c = true := by
  intro c mem
  simp only [newLine, String.toList_append, String.toList_ofList, List.mem_append] at mem
  rcases mem with mem | mem
  · obtain rfl : c = '\n' := by simpa using mem
    decide
  · obtain rfl := List.eq_of_mem_replicate mem
    decide

/-- Values may have blanks in front of them. -/
theorem value?_append (blank : ∀ c ∈ gap, isBlank c = true) (fuel depth : Nat) (cs : List Char) :
    value? fuel depth (gap ++ cs) = value? fuel depth cs := by
  cases fuel with
  | zero => simp [value?]
  | succ fuel => rw [value?, value?, skipBlanks_append blank]

theorem items?_append (blank : ∀ c ∈ gap, isBlank c = true) (fuel depth : Nat) (cs : List Char) :
    items? fuel depth (gap ++ cs) = items? fuel depth cs := by
  cases fuel with
  | zero => simp [items?]
  | succ fuel => rw [items?, items?, value?_append blank]

theorem fields?_append (blank : ∀ c ∈ gap, isBlank c = true) (fuel depth : Nat) (cs : List Char) :
    fields? fuel depth (gap ++ cs) = fields? fuel depth cs := by
  cases fuel with
  | zero => simp [fields?]
  | succ fuel => rw [fields?, fields?, skipBlanks_append blank]

/-! ## Texts -/

theorem hexValue?_hexDigit {n : Nat} (small : n < 16) : hexValue? (hexDigit n) = some n := by
  revert n
  decide

/-- A control character is read from its four digits. -/
theorem hexUnit?_control {c : Char} (control : c.toNat < 32) :
    hexUnit? '0' '0' (hexDigit (c.toNat / 16)) (hexDigit (c.toNat % 16)) = some c.toNat := by
  have zero : hexValue? '0' = some 0 := by decide
  have high := hexValue?_hexDigit (n := c.toNat / 16) (by omega)
  have low := hexValue?_hexDigit (n := c.toNat % 16) (by omega)
  simp only [hexUnit?, zero, high, low]
  congr 1
  omega

/-- A character that needs no escape stands for itself. -/
theorem textUnits?_plain {c : Char} (noQuote : c ≠ '"') (noEscape : c ≠ '\\')
    (visible : ¬ c.toNat < 32) (cs : List Char) :
    textUnits? (c :: cs) = (textUnits? cs).map fun r => (.char c :: r.1, r.2) := by
  rw [textUnits?.eq_def]
  split
  · next h => cases h
  · next h => exact (noQuote (List.cons.inj h).1).elim
  · next h => exact (noEscape (List.cons.inj h).1).elim
  · next h => exact (noEscape (List.cons.inj h).1).elim
  · next h =>
    obtain ⟨rfl, rfl⟩ := List.cons.inj h
    simp only [visible, decide_false, Bool.false_or, beq_iff_eq, noEscape, if_false]
    cases textUnits? cs <;> rfl

theorem textUnits?_short {c letter : Char} (short : shortEscape? letter = some c) (cs : List Char) :
    textUnits? ('\\' :: letter :: cs) = (textUnits? cs).map fun r => (.char c :: r.1, r.2) := by
  have noUnit : letter ≠ 'u' := by
    rintro rfl
    cases short
  rw [textUnits?.eq_def]
  split
  · next h => cases h
  · next h => cases (List.cons.inj h).1
  · next h => exact (noUnit (List.cons.inj (List.cons.inj h).2).1).elim
  · next h =>
    obtain ⟨rfl, rfl⟩ := List.cons.inj (List.cons.inj h).2
    rw [short]
    cases textUnits? cs <;> rfl
  · next _ unescaped h =>
    obtain ⟨rfl, rfl⟩ := List.cons.inj h
    exact (unescaped _ _ rfl rfl).elim

/-- Each character of a text is read as one unit that stands for it. -/
theorem textUnits?_escapeChar (c : Char) (cs : List Char) :
    ∃ unit, (∀ units, chars? (unit :: units) = (chars? units).map (c :: ·)) ∧
      textUnits? (escapeChar c ++ cs) = (textUnits? cs).map fun r => (unit :: r.1, r.2) := by
  have char (units : List TextUnit) : chars? (.char c :: units) = (chars? units).map (c :: ·) := by
    rw [chars?]
  have short (letter : Char) (stands : shortEscape? letter = some c) :
      ∃ unit, (∀ units, chars? (unit :: units) = (chars? units).map (c :: ·)) ∧
        textUnits? ('\\' :: letter :: cs) = (textUnits? cs).map fun r => (unit :: r.1, r.2) :=
    ⟨.char c, char, textUnits?_short stands cs⟩
  unfold escapeChar
  split
  · next same => exact short '"' (by rw [eq_of_beq same]; rfl)
  split
  · next same => exact short '\\' (by rw [eq_of_beq same]; rfl)
  split
  · next same => exact short 'b' (by rw [eq_of_beq same]; rfl)
  split
  · next same => exact short 't' (by rw [eq_of_beq same]; rfl)
  split
  · next same => exact short 'n' (by rw [eq_of_beq same]; rfl)
  split
  · next same => exact short 'f' (by rw [eq_of_beq same]; rfl)
  split
  · next same => exact short 'r' (by rw [eq_of_beq same]; rfl)
  split
  · next control =>
    refine ⟨.unit c.toNat, ?_, ?_⟩
    · intro units
      have noPair : ¬ (0xDC00 ≤ c.toNat ∧ c.toNat < 0xE000) ∧
          ¬ (0xD800 ≤ c.toNat ∧ c.toNat < 0xDC00) := by
        omega
      rw [chars?.eq_def]
      simp only [noPair, if_false, Char.ofNat_toNat]
    · simp only [List.cons_append, List.nil_append, textUnits?, hexUnit?_control control]
      cases textUnits? cs <;> rfl
  · next noQuote noEscape _ _ _ _ _ visible =>
    refine ⟨.char c, char, textUnits?_plain ?_ ?_ visible cs⟩
    · simpa using noQuote
    · simpa using noEscape

theorem toList_quote (s : String) :
    (quote s).toList = '"' :: (s.toList.flatMap escapeChar ++ ['"']) := by
  simp [quote]

theorem text?_quote (s : String) (rest : List Char) :
    text? ((quote s).toList ++ rest) = some (some s, rest) := by
  have units : ∀ cs : List Char, ∃ units, chars? units = some cs ∧
      textUnits? (cs.flatMap escapeChar ++ '"' :: rest) = some (units, rest) := by
    intro cs
    induction cs with
    | nil => exact ⟨[], rfl, rfl⟩
    | cons c cs ih =>
      obtain ⟨units, chars, read⟩ := ih
      obtain ⟨unit, stands, step⟩ := textUnits?_escapeChar c (cs.flatMap escapeChar ++ '"' :: rest)
      refine ⟨unit :: units, ?_, ?_⟩
      · rw [stands, chars]
        rfl
      · rw [List.flatMap_cons, List.append_assoc, step, read]
        rfl
  obtain ⟨units, chars, read⟩ := units s.toList
  have whole : (quote s).toList ++ rest = '"' :: (s.toList.flatMap escapeChar ++ '"' :: rest) := by
    simp [quote]
  simp [whole, text?, read, chars]

/-! ## Values that can be read -/

mutual

/-- Is a value made of texts, switches, arrays and objects, and nested so little that it can
be read where `depth` arrays and objects may be opened? -/
def Fits (depth : Nat) : Json → Prop
  | .null => True
  | .bool _ => True
  | .str _ => True
  | .arr items => 1 < depth ∧ ItemsFit (depth - 1) items
  | .obj fields => 1 < depth ∧ FieldsFit (depth - 1) fields
  | .num _ _ => False
  | .flawed => False

def ItemsFit (depth : Nat) : List Json → Prop
  | [] => True
  | item :: rest => item.Fits depth ∧ ItemsFit depth rest

def FieldsFit (depth : Nat) : List (String × Json) → Prop
  | [] => True
  | (_, value) :: rest => value.Fits depth ∧ FieldsFit depth rest

end

theorem itemsFit_iff {depth : Nat} {items : List Json} :
    ItemsFit depth items ↔ ∀ item ∈ items, item.Fits depth := by
  induction items with
  | nil => simp [ItemsFit]
  | cons item items ih => simp [ItemsFit, ih]

theorem fieldsFit_iff {depth : Nat} {fields : List (String × Json)} :
    FieldsFit depth fields ↔ ∀ field ∈ fields, field.2.Fits depth := by
  induction fields with
  | nil => simp [FieldsFit]
  | cons field fields ih => simp [FieldsFit, ih]

theorem prettyItems_eq (level : Nat) (items : List Json) :
    prettyItems level items = items.map (prettyAt level) := by
  induction items with
  | nil => rfl
  | cons item items ih => rw [prettyItems, ih, List.map_cons]

/-- A field over several lines. -/
def prettyField (level : Nat) (field : String × Json) : String :=
  quote field.1 ++ ": " ++ prettyAt level field.2

theorem prettyFields_eq (level : Nat) (fields : List (String × Json)) :
    prettyFields level fields = fields.map (prettyField level) := by
  induction fields with
  | nil => rfl
  | cons field fields ih => rw [prettyFields, ih, List.map_cons, prettyField]

/-- The texts of a list with commas between them, each on a line of its own. -/
def listed (level : Nat) (texts : List String) : List Char :=
  (',' :: (newLine level).toList).intercalate (texts.map String.toList)

theorem listed_cons_cons (level : Nat) (text next : String) (texts : List String) :
    listed level (text :: next :: texts) =
      text.toList ++ ',' :: ((newLine level).toList ++ listed level (next :: texts)) := by
  simp [listed, List.intercalate_cons_cons]

theorem listed_singleton (level : Nat) (text : String) : listed level [text] = text.toList := by
  simp [listed]

/-- A list begins as its first text does. -/
theorem listed_eq_cons {level : Nat} {text : String} {texts : List String} {c : Char}
    (begins : ∃ cs, text.toList = c :: cs) : ∃ cs, listed level (text :: texts) = c :: cs := by
  obtain ⟨cs, begins⟩ := begins
  cases texts with
  | nil => exact ⟨cs, by rw [listed_singleton, begins]⟩
  | cons next texts => exact ⟨_, by rw [listed_cons_cons, begins, List.cons_append]⟩

theorem toList_prettyAt_null (level : Nat) :
    (prettyAt level .null).toList = 'n' :: ['u', 'l', 'l'] := by
  change "null".toList = _
  rfl

theorem toList_prettyAt_true (level : Nat) :
    (prettyAt level (.bool true)).toList = 't' :: ['r', 'u', 'e'] := by
  change "true".toList = _
  rfl

theorem toList_prettyAt_false (level : Nat) :
    (prettyAt level (.bool false)).toList = 'f' :: ['a', 'l', 's', 'e'] := by
  change "false".toList = _
  rfl

theorem toList_prettyAt_str (level : Nat) (value : String) :
    (prettyAt level (.str value)).toList = '"' :: (value.toList.flatMap escapeChar ++ ['"']) :=
  toList_quote value

theorem toList_prettyAt_arr_nil (level : Nat) : (prettyAt level (.arr [])).toList = '[' :: [']'] := by
  change "[]".toList = _
  rfl

theorem toList_prettyAt_obj_nil (level : Nat) :
    (prettyAt level (.obj [])).toList = '\x7b' :: ['\x7d'] := by
  change "\x7b\x7d".toList = _
  rfl

theorem toList_prettyAt_arr (level : Nat) {items : List Json} (present : items ≠ []) :
    (prettyAt level (.arr items)).toList = '[' :: ((newLine (level + 1)).toList ++
      (listed (level + 1) (items.map (prettyAt (level + 1))) ++ ((newLine level).toList ++ [']']))) := by
  cases items with
  | nil => exact (present rfl).elim
  | cons item items =>
    rw [prettyAt, prettyItems_eq]
    · simp [listed]
    · exact present

theorem toList_prettyAt_obj (level : Nat) {fields : List (String × Json)} (present : fields ≠ []) :
    (prettyAt level (.obj fields)).toList = '\x7b' :: ((newLine (level + 1)).toList ++
      (listed (level + 1) (fields.map (prettyField (level + 1))) ++
        ((newLine level).toList ++ ['\x7d']))) := by
  cases fields with
  | nil => exact (present rfl).elim
  | cons field fields =>
    rw [prettyAt, prettyFields_eq]
    · simp [listed]
    · exact present

/-- What is written for a value begins with a character that ends no list. -/
theorem prettyAt_eq_cons (level : Nat) {depth : Nat} {j : Json} (fits : j.Fits depth) :
    ∃ c cs, (prettyAt level j).toList = c :: cs ∧ isBlank c = false ∧ c ≠ ']' := by
  cases j with
  | null => exact ⟨'n', _, toList_prettyAt_null level, by decide, by decide⟩
  | bool value =>
    cases value with
    | false => exact ⟨'f', _, toList_prettyAt_false level, by decide, by decide⟩
    | true => exact ⟨'t', _, toList_prettyAt_true level, by decide, by decide⟩
  | str value => exact ⟨'"', _, toList_prettyAt_str level value, by decide, by decide⟩
  | arr items =>
    by_cases present : items = []
    · exact ⟨'[', _, present ▸ toList_prettyAt_arr_nil level, by decide, by decide⟩
    · exact ⟨'[', _, toList_prettyAt_arr level present, by decide, by decide⟩
  | obj fields =>
    by_cases present : fields = []
    · exact ⟨'\x7b', _, present ▸ toList_prettyAt_obj_nil level, by decide, by decide⟩
    · exact ⟨'\x7b', _, toList_prettyAt_obj level present, by decide, by decide⟩
  | num _ _ => exact fits.elim
  | flawed => exact fits.elim

/-! ## Reading lists -/

/-- A value is read where it was written, whatever follows. -/
def Reads (level depth : Nat) (j : Json) : Prop :=
  ∀ fuel, (prettyAt level j).toList.length ≤ fuel → ∀ rest,
    value? fuel depth ((prettyAt level j).toList ++ rest) = some (j, rest)

/-- The items of an array are read if each of them is. -/
theorem items?_listed {level depth fuel : Nat} {items : List Json} (present : items ≠ [])
    (blank : ∀ c ∈ gap, isBlank c = true) (reads : ∀ item ∈ items, Reads level depth item)
    (enough : (listed level (items.map (prettyAt level))).length < fuel) :
    items? fuel depth (listed level (items.map (prettyAt level)) ++ (gap ++ ']' :: rest)) =
      some (items, rest) := by
  induction items generalizing fuel with
  | nil => exact (present rfl).elim
  | cons item items ih =>
    have read := reads item List.mem_cons_self
    cases fuel with
    | zero => omega
    | succ fuel =>
      cases items with
      | nil =>
        rw [List.map_singleton, listed_singleton] at enough ⊢
        have closes : skipBlanks (gap ++ ']' :: rest) = ']' :: rest := by
          rw [skipBlanks_append blank, skipBlanks_cons (by decide)]
        rw [items?, read fuel (by omega)]
        simp [closes]
      | cons next items =>
        rw [List.map_cons, List.map_cons, listed_cons_cons] at enough ⊢
        rw [← List.map_cons] at enough ⊢
        simp only [List.length_append, List.length_cons] at enough
        have goes (cs : List Char) : skipBlanks (',' :: cs) = ',' :: cs :=
          skipBlanks_cons (by decide) cs
        have more := ih (by simp) (fun j mem => reads j (List.mem_cons_of_mem _ mem))
          (show _ < fuel by omega)
        rw [List.append_assoc, items?, read fuel (by omega)]
        simp only [Option.bind_eq_bind, Option.bind_some, List.cons_append, List.append_assoc, goes,
          items?_append (isBlank_newLine level), more]
        rfl

/-- The fields of an object are read if each of their values is. -/
theorem fields?_listed {level depth fuel : Nat} {fields : List (String × Json)}
    (present : fields ≠ []) (blank : ∀ c ∈ gap, isBlank c = true)
    (reads : ∀ field ∈ fields, Reads level depth field.2)
    (enough : (listed level (fields.map (prettyField level))).length < fuel) :
    fields? fuel depth (listed level (fields.map (prettyField level)) ++ (gap ++ '\x7d' :: rest)) =
      some (some fields, rest) := by
  have toList_prettyField (field : String × Json) : (prettyField level field).toList =
      (quote field.1).toList ++ ':' :: ' ' :: (prettyAt level field.2).toList := by
    simp [prettyField]
  have names (s : String) (cs : List Char) :
      text? (skipBlanks ((quote s).toList ++ cs)) = some (some s, cs) := by
    have quoted : skipBlanks ((quote s).toList ++ cs) = (quote s).toList ++ cs := by
      rw [toList_quote, List.cons_append, skipBlanks_cons (by decide)]
    rw [quoted, text?_quote]
  have goes (cs : List Char) : skipBlanks (':' :: cs) = ':' :: cs := skipBlanks_cons (by decide) cs
  have space (fuel : Nat) (cs : List Char) : value? fuel depth (' ' :: cs) = value? fuel depth cs :=
    value?_append (by simp [isBlank] : ∀ c ∈ [' '], isBlank c = true) fuel depth cs
  induction fields generalizing fuel with
  | nil => exact (present rfl).elim
  | cons field fields ih =>
    have read := reads field List.mem_cons_self
    cases fuel with
    | zero => omega
    | succ fuel =>
      cases fields with
      | nil =>
        rw [List.map_singleton, listed_singleton, toList_prettyField] at enough ⊢
        simp only [List.length_append, List.length_cons] at enough
        have closes : skipBlanks (gap ++ '\x7d' :: rest) = '\x7d' :: rest := by
          rw [skipBlanks_append blank, skipBlanks_cons (by decide)]
        rw [List.append_assoc, fields?, names]
        simp only [Option.bind_eq_bind, Option.bind_some, List.cons_append, goes, space,
          read fuel (by omega), closes]
        rfl
      | cons next fields =>
        rw [List.map_cons, List.map_cons, listed_cons_cons, toList_prettyField] at enough ⊢
        rw [← List.map_cons] at enough ⊢
        simp only [List.length_append, List.length_cons] at enough
        have goesOn (cs : List Char) : skipBlanks (',' :: cs) = ',' :: cs :=
          skipBlanks_cons (by decide) cs
        have more := ih (by simp) (fun f mem => reads f (List.mem_cons_of_mem _ mem))
          (show _ < fuel by omega)
        rw [List.append_assoc, List.append_assoc, fields?, names]
        simp only [Option.bind_eq_bind, Option.bind_some, List.cons_append, List.append_assoc, goes,
          space, read fuel (by omega), goesOn, fields?_append (isBlank_newLine level), more]
        rfl

/-! ## Reading values -/

/-- What is written is read if it is read with fuel for the character it begins with. -/
theorem reads_of_cons {level depth : Nat} {j : Json} {c : Char} {cs : List Char}
    (text : (prettyAt level j).toList = c :: cs) (visible : isBlank c = false)
    (read : ∀ fuel, cs.length ≤ fuel → ∀ rest, skipBlanks (c :: (cs ++ rest)) = c :: (cs ++ rest) →
      value? (fuel + 1) depth (c :: (cs ++ rest)) = some (j, rest)) : Reads level depth j := by
  intro fuel enough rest
  rw [text] at enough ⊢
  cases fuel with
  | zero => simp at enough
  | succ fuel =>
    apply read fuel
    · simpa using enough
    · exact skipBlanks_cons visible _

/-- A value that fits is read where it was written. -/
theorem reads_of_fits (level : Nat) {depth : Nat} (j : Json) (fits : j.Fits depth) :
    Reads level depth j := by
  match j with
  | .null =>
    apply reads_of_cons (toList_prettyAt_null level) (by decide)
    intro fuel _ rest visible
    rw [value?, visible]
    simp [afterWord?]
  | .bool true =>
    apply reads_of_cons (toList_prettyAt_true level) (by decide)
    intro fuel _ rest visible
    rw [value?, visible]
    simp [afterWord?]
  | .bool false =>
    apply reads_of_cons (toList_prettyAt_false level) (by decide)
    intro fuel _ rest visible
    rw [value?, visible]
    simp [afterWord?]
  | .str value =>
    apply reads_of_cons (toList_prettyAt_str level value) (by decide)
    intro fuel _ rest visible
    have read := text?_quote value rest
    rw [toList_quote, List.cons_append] at read
    rw [value?, visible]
    simp only [read, Option.bind_eq_bind, Option.bind_some]
    rfl
  | .arr items =>
    obtain ⟨deep, inside⟩ := fits
    have deep : ¬ depth ≤ 1 := by omega
    by_cases present : items = []
    · subst present
      apply reads_of_cons (toList_prettyAt_arr_nil level) (by decide)
      intro fuel _ rest visible
      have closes : skipBlanks ([']'] ++ rest) = ']' :: rest := skipBlanks_cons (by decide) rest
      rw [value?, visible]
      simp only [closes, deep, if_false]
    · have reads : ∀ item ∈ items, Reads (level + 1) (depth - 1) item := fun item mem =>
        reads_of_fits (level + 1) item (itemsFit_iff.mp inside item mem)
      obtain ⟨c, visible, opens, begins⟩ : ∃ c, isBlank c = false ∧ c ≠ ']' ∧
          ∃ cs, listed (level + 1) (items.map (prettyAt (level + 1))) = c :: cs := by
        obtain ⟨first, more, rfl⟩ := List.exists_cons_of_ne_nil present
        obtain ⟨c, cs, begins, visible, opens⟩ := prettyAt_eq_cons (level + 1) inside.1
        exact ⟨c, visible, opens, listed_eq_cons ⟨cs, begins⟩⟩
      apply reads_of_cons (toList_prettyAt_arr level present) (by decide)
      intro fuel enough rest shown
      simp only [List.length_append, List.length_singleton] at enough
      have read : items? fuel (depth - 1) (listed (level + 1) (items.map (prettyAt (level + 1))) ++
          ((newLine level).toList ++ ']' :: rest)) = some (items, rest) :=
        items?_listed present (isBlank_newLine level) reads (by omega)
      obtain ⟨cs, begins⟩ := begins
      rw [value?, shown]
      simp only [List.append_assoc, skipBlanks_append (isBlank_newLine (level + 1)), begins,
        List.cons_append, skipBlanks_cons visible]
      rw [begins, List.cons_append] at read
      split
      · next closed => exact (opens (List.cons.inj closed).1).elim
      · simp [read, deep]
  | .obj fields =>
    obtain ⟨deep, inside⟩ := fits
    have deep : ¬ depth ≤ 1 := by omega
    by_cases present : fields = []
    · subst present
      apply reads_of_cons (toList_prettyAt_obj_nil level) (by decide)
      intro fuel _ rest visible
      have closes : skipBlanks (['\x7d'] ++ rest) = '\x7d' :: rest := skipBlanks_cons (by decide) rest
      rw [value?, visible]
      simp only [closes, deep, if_false]
    · have reads : ∀ field ∈ fields, Reads (level + 1) (depth - 1) field.2 := fun field mem =>
        reads_of_fits (level + 1) field.2 (fieldsFit_iff.mp inside field mem)
      obtain ⟨cs, begins⟩ :
          ∃ cs, listed (level + 1) (fields.map (prettyField (level + 1))) = '"' :: cs := by
        obtain ⟨first, more, rfl⟩ := List.exists_cons_of_ne_nil present
        exact listed_eq_cons ⟨_, by simp [prettyField, toList_quote]; rfl⟩
      apply reads_of_cons (toList_prettyAt_obj level present) (by decide)
      intro fuel enough rest shown
      simp only [List.length_append, List.length_singleton] at enough
      have read : fields? fuel (depth - 1) (listed (level + 1) (fields.map (prettyField (level + 1))) ++
          ((newLine level).toList ++ '\x7d' :: rest)) = some (some fields, rest) :=
        fields?_listed present (isBlank_newLine level) reads (by omega)
      rw [value?, shown]
      simp only [List.append_assoc, skipBlanks_append (isBlank_newLine (level + 1)), begins,
        List.cons_append, skipBlanks_cons (show isBlank '"' = false by decide)]
      rw [begins, List.cons_append] at read
      simp [read, deep]
termination_by sizeOf j
decreasing_by
  · have smaller := List.sizeOf_lt_of_mem mem
    simp
    omega
  · have smaller := List.sizeOf_lt_of_mem mem
    obtain ⟨name, value⟩ := field
    simp at smaller ⊢
    omega

/-- A value that is nested no deeper than a reader takes is read back from what is written
for it. -/
theorem parse?_pretty {j : Json} (fits : j.Fits depthLimit) : parse? j.pretty = some j := by
  have read := reads_of_fits 0 j fits (2 * j.pretty.toList.length + 2)
    (show j.pretty.toList.length ≤ _ by omega) []
  rw [List.append_nil] at read
  change value? _ depthLimit j.pretty.toList = some (j, []) at read
  rw [parse?]
  simp only [read, Option.bind_eq_bind, Option.bind_some]
  rfl

end JavaMend.Json
