import JavaMend.Tree.Printer

/-!
# Literals that are read back

A text or a character is printed between quotes, with escapes. Who reads it scans for the
closing quote, where a backslash is skipped with the character behind it, and decodes what
stands in between. The scan ends where the text ends and the decoder finds the value, whatever
the value is made of (`Expr.text_literal_readsBack`).

A literal should also stay on its line. A line feed is escaped, but a carriage return is not:
it is in the text if it is in the value.
-/

namespace JavaMend

namespace Literal

/-! ## Readers -/

/-- What stands behind the closing quote. -/
def afterClosing? (quote : Char) : List Char → Option (List Char)
  | [] => none
  | '\\' :: _ :: rest => afterClosing? quote rest
  | c :: rest => if c = quote then some rest else afterClosing? quote rest

/-- What a character behind a backslash stands for, if it is an escape by itself. -/
def simpleEscape? : Char → Option Char
  | 'b' => some '\x08'
  | 's' => some ' '
  | 't' => some '\t'
  | 'n' => some '\n'
  | 'f' => some '\x0c'
  | 'r' => some '\r'
  | '"' => some '"'
  | '\'' => some '\''
  | '\\' => some '\\'
  | _ => none

def isOctalDigit (c : Char) : Bool := decide ('0' ≤ c ∧ c ≤ '7')

/-- An escape of up to three octal digits, as many as can be had; a third one only where the
first is at most 3. -/
def octalEscape? : List Char → Option (Char × List Char)
  | [] => none
  | first :: rest =>
    if isOctalDigit first then
      let more := (rest.take (if first ≤ '3' then 2 else 1)).takeWhile isOctalDigit
      some (Char.ofNat (Nat.ofDigitChars 8 (first :: more) 0), rest.drop more.length)
    else none

/-- The escape behind a backslash: what it stands for and what is left. A Unicode escape is
none of them, since these are replaced in the whole source before a literal is read. -/
def escape? : List Char → Option (Char × List Char)
  | [] => none
  | c :: rest =>
    match simpleEscape? c with
    | some value => some (value, rest)
    | none => octalEscape? (c :: rest)

theorem length_of_escape? {text rest : List Char} {value : Char}
    (read : escape? text = some (value, rest)) : rest.length < text.length := by
  cases text with
  | nil => cases read
  | cons c text =>
    simp only [escape?] at read
    split at read
    next =>
      cases read
      exact Nat.lt_succ_self _
    next =>
      simp only [octalEscape?] at read
      split at read
      next =>
        cases read
        rw [List.length_drop]
        exact Nat.lt_succ_of_le (Nat.sub_le _ _)
      next => cases read

/-- What a text with escapes stands for. -/
def unescape? : List Char → Option (List Char)
  | [] => some []
  | '\\' :: text =>
    match _read : escape? text with
    | some (value, rest) => (unescape? rest).map (value :: ·)
    | none => none
  | c :: rest => (unescape? rest).map (c :: ·)
termination_by text => text.length
decreasing_by
  · exact Nat.lt_succ_of_lt (length_of_escape? _read)
  · exact Nat.lt_succ_self _

/-- The text reads back as the characters between the quotes, and no line feed is in it. The
only carriage returns are those of the value. -/
structure ReadsBack (quote : Char) (value : List Char) (text : String) : Prop where
  noLineFeed : '\n' ∉ text.toList
  carriageReturn : '\r' ∈ text.toList ↔ '\r' ∈ value
  closed : ∃ inner, text.toList = quote :: inner ++ [quote] ∧
    (∀ rest, afterClosing? quote (inner ++ quote :: rest) = some rest) ∧
    unescape? inner = some value

theorem toList_quoted (quote : Char) (value : List Char) :
    (quoted quote value).toList = quote :: value.flatMap (escapeChar quote) ++ [quote] := by
  rw [quoted, String.toList_ofList]

/-- Between the quotes stands what the characters are written as. -/
theorem mem_quoted {quote c : Char} {value : List Char} (other : c ≠ quote) :
    c ∈ (quoted quote value).toList ↔ ∃ v ∈ value, c ∈ escapeChar quote v := by
  rw [toList_quoted, List.cons_append, List.mem_cons, List.mem_append, List.mem_singleton,
    List.mem_flatMap]
  simp only [other, false_or, or_false]

/-! ## One character -/

/-- A character that is a line break is no escape. -/
theorem simpleEscape?_lineBreak {letter c : Char} (stands : simpleEscape? letter = some c) :
    letter ≠ '\n' ∧ letter ≠ '\r' := by
  constructor <;> (rintro rfl; cases stands)

section

variable {quote : Char} (delimits : quote = '"' ∨ quote = '\'')

include delimits

/-- A character is escaped, or it is none that would have to be: the carriage return apart. -/
theorem escapeChar_eq (c : Char) :
    (∃ letter, escapeChar quote c = ['\\', letter] ∧ simpleEscape? letter = some c ∧ c ≠ '\r') ∨
      escapeChar quote c = [c] ∧ c ≠ '\\' ∧ c ≠ quote ∧ c ≠ '\n' := by
  unfold escapeChar
  split
  · next same =>
    obtain rfl := eq_of_beq same
    exact .inl ⟨'\\', rfl, rfl, by decide⟩
  split
  · next same =>
    obtain rfl := eq_of_beq same
    rcases delimits with rfl | rfl
    · exact .inl ⟨'"', rfl, rfl, by decide⟩
    · exact .inl ⟨'\'', rfl, rfl, by decide⟩
  split
  · next same =>
    obtain rfl := eq_of_beq same
    exact .inl ⟨'n', rfl, rfl, by decide⟩
  split
  · next same =>
    obtain rfl := eq_of_beq same
    exact .inl ⟨'t', rfl, rfl, by decide⟩
  · next noBackslash noQuote noLineFeed _ =>
    simp only [beq_iff_eq] at noBackslash noQuote noLineFeed
    exact .inr ⟨rfl, noBackslash, noQuote, noLineFeed⟩

theorem afterClosing?_escapeChar (c : Char) (text : List Char) :
    afterClosing? quote (escapeChar quote c ++ text) = afterClosing? quote text := by
  rcases escapeChar_eq delimits c with ⟨letter, escaped, -⟩ | ⟨plain, noBackslash, noQuote, -⟩
  · rw [escaped]
    rfl
  · rw [plain, List.cons_append, List.nil_append, afterClosing?.eq_def]
    split
    · next h => cases h
    · next h => exact absurd (List.cons.inj h).1 noBackslash
    · next h =>
      obtain ⟨rfl, rfl⟩ := List.cons.inj h
      exact if_neg noQuote

theorem unescape?_escapeChar (c : Char) (text : List Char) :
    unescape? (escapeChar quote c ++ text) = (unescape? text).map (c :: ·) := by
  rcases escapeChar_eq delimits c with ⟨letter, escaped, stands, -⟩ | ⟨plain, noBackslash, -⟩
  · have read : escape? (letter :: text) = some (c, text) := by
      simp only [escape?, stands]
    rw [escaped, List.cons_append, List.cons_append, List.nil_append, unescape?]
    split
    · next h =>
      rw [read] at h
      cases h
      rfl
    · next h =>
      rw [read] at h
      cases h
  · rw [plain, List.cons_append, List.nil_append, unescape?]
    exact noBackslash

theorem lineFeed_not_mem_escapeChar (c : Char) : '\n' ∉ escapeChar quote c := by
  intro mem
  rcases escapeChar_eq delimits c with ⟨letter, escaped, stands, -⟩ | ⟨plain, -, -, noLineFeed⟩
  · rw [escaped, List.mem_cons, List.mem_singleton] at mem
    rcases mem with here | here
    · cases here
    · exact (simpleEscape?_lineBreak stands).1 here.symm
  · rw [plain, List.mem_singleton] at mem
    exact noLineFeed mem.symm

theorem carriageReturn_mem_escapeChar (c : Char) : '\r' ∈ escapeChar quote c ↔ '\r' = c := by
  rcases escapeChar_eq delimits c with ⟨letter, escaped, stands, other⟩ | ⟨plain, -⟩
  · rw [escaped, List.mem_cons, List.mem_singleton]
    refine ⟨fun mem => ?_, fun same => absurd same.symm other⟩
    rcases mem with here | here
    · cases here
    · exact absurd here.symm (simpleEscape?_lineBreak stands).2
  · rw [plain, List.mem_singleton]

/-! ## All characters -/

/-- The scan passes over the value to the quote behind it. -/
theorem afterClosing?_escaped (value rest : List Char) :
    afterClosing? quote (value.flatMap (escapeChar quote) ++ quote :: rest) = some rest := by
  induction value with
  | nil =>
    rcases delimits with rfl | rfl <;> rfl
  | cons c value ih =>
    rw [List.flatMap_cons, List.append_assoc, afterClosing?_escapeChar delimits, ih]

theorem unescape?_escaped (value : List Char) :
    unescape? (value.flatMap (escapeChar quote)) = some value := by
  induction value with
  | nil => rw [List.flatMap_nil, unescape?]
  | cons c value ih =>
    rw [List.flatMap_cons, unescape?_escapeChar delimits, ih]
    rfl

theorem quoted_readsBack (value : List Char) : ReadsBack quote value (quoted quote value) where
  noLineFeed := by
    rw [mem_quoted (by rcases delimits with rfl | rfl <;> decide)]
    rintro ⟨c, -, mem⟩
    exact lineFeed_not_mem_escapeChar delimits c mem
  carriageReturn := by
    rw [mem_quoted (by rcases delimits with rfl | rfl <;> decide)]
    simp only [carriageReturn_mem_escapeChar delimits, exists_eq_right']
  closed := ⟨value.flatMap (escapeChar quote), toList_quoted quote value,
    afterClosing?_escaped delimits value, unescape?_escaped delimits value⟩

end

end Literal

/-- Texts and characters are printed so that they read back. -/
theorem Expr.text_literal_readsBack (id : NodeId) (ty : Ty) :
    (∀ value : String,
      Literal.ReadsBack '"' value.toList (Expr.text ⟨id, ty, .literal (.string value)⟩)) ∧
    ∀ value : Char, Literal.ReadsBack '\'' [value] (Expr.text ⟨id, ty, .literal (.char value)⟩) := by
  refine ⟨fun value => ?_, fun value => ?_⟩
  · rw [Expr.text, Literal.text]
    exact Literal.quoted_readsBack (.inl rfl) value.toList
  · rw [Expr.text, Literal.text]
    exact Literal.quoted_readsBack (.inr rfl) [value]

/-- A carriage return is printed as it is. -/
example : (Literal.string "\r").text = "\"\r\"" := by decide

end JavaMend
