import JavaMend.Patch.Guard
import Mathlib.Data.List.Forall2

/-!
# Messages of guards

The message of a guard is pasted into the text that is searched for placeholders. It is only
text exactly if no placeholder starts in it: then the guard takes the operands of its variant,
and what it throws carries the message as it is (`guardTemplate_isText_iff`). With any other
message there is no template or one that asks for more operands.
-/

namespace JavaMend

namespace Template

/-- Where a placeholder starts. -/
def opening : List Char := ['#', '\x7b']

/-! ## Where placeholders are found -/

/-- The text ends outside of a placeholder, so what follows it is read for itself. -/
def Closed (cs : List Char) : Prop :=
  ∀ rest, placeholders (cs ++ rest) = placeholders cs ++ placeholders rest

variable {cs ds rest inner : List Char}

theorem placeholders_cons {c : Char} (other : c ≠ '#' ∨ rest.head? ≠ some '\x7b') :
    placeholders (c :: rest) = placeholders rest := by
  refine placeholders.eq_3 c rest fun rest' hash brace => ?_
  exact other.elim (· hash) fun first => first (brace ▸ rfl)

theorem untilBrace?_append (unbraced : '\x7d' ∉ inner) :
    untilBrace? (inner ++ '\x7d' :: rest) = some (inner, rest) := by
  induction inner with
  | nil => rfl
  | cons c inner ih =>
    rw [List.mem_cons, not_or] at unbraced
    rw [List.cons_append, untilBrace?, ih unbraced.2]
    · rfl
    · exact fun brace => unbraced.1 brace.symm

theorem placeholders_placeholder (unbraced : '\x7d' ∉ inner) :
    placeholders ('#' :: '\x7b' :: (inner ++ '\x7d' :: rest)) = inner :: placeholders rest := by
  rw [placeholders]
  split
  next found =>
    cases found.symm.trans (untilBrace?_append unbraced)
    rfl
  next none => cases none.symm.trans (untilBrace?_append unbraced)

theorem Closed.append (closed : Closed cs) (closed' : Closed ds) : Closed (cs ++ ds) := by
  intro rest
  rw [List.append_assoc, closed, closed', closed ds, List.append_assoc]

/-- A text without the first character of a placeholder is closed. -/
theorem closed_of_not_mem (plain : '#' ∉ cs) : Closed cs := by
  have skipped (rest : List Char) : placeholders (cs ++ rest) = placeholders rest := by
    induction cs with
    | nil => rfl
    | cons c cs ih =>
      rw [List.mem_cons, not_or] at plain
      rw [List.cons_append, placeholders_cons (.inl (Ne.symm plain.1)), ih plain.2]
  intro rest
  have none : placeholders cs = [] := by simpa [placeholders] using skipped []
  rw [skipped, none, List.nil_append]

theorem closed_placeholder (unbraced : '\x7d' ∉ inner) :
    Closed (opening ++ (inner ++ ['\x7d'])) := by
  intro rest
  have alone : placeholders (opening ++ (inner ++ ['\x7d'])) = [inner] :=
    (placeholders_placeholder unbraced).trans (by rw [placeholders.eq_1])
  rw [alone, List.append_assoc, List.append_assoc]
  exact placeholders_placeholder unbraced

/-! ## What follows a message -/

/-- A text in which no placeholder starts, and after which none does, is passed over. -/
theorem placeholders_plain {c : Char} (plain : ¬ opening <:+: cs) (other : c ≠ '#' ∧ c ≠ '\x7b') :
    placeholders (cs ++ c :: rest) = placeholders rest := by
  induction cs with
  | nil => exact placeholders_cons (.inl other.1)
  | cons d cs ih =>
    rw [List.cons_append, placeholders_cons, ih fun starts => plain (starts.trans (List.suffix_cons d cs).isInfix)]
    refine not_and_or.mp ?_
    rintro ⟨rfl, brace⟩
    cases cs with
    | nil => exact other.2 (Option.some.inj brace)
    | cons d' cs =>
      cases brace
      exact plain (List.prefix_append opening cs).isInfix

/-- A placeholder that starts somewhere and can be finished is found, or one before it. -/
theorem placeholders_ne_nil (starts : opening <:+: cs) (braced : '\x7d' ∈ rest) :
    placeholders (cs ++ rest) ≠ [] := by
  have here {cs : List Char} (braced : '\x7d' ∈ cs) : placeholders (opening ++ cs) ≠ [] := by
    obtain ⟨inner, after, rfl, unbraced⟩ := List.eq_append_cons_of_mem braced
    exact ne_of_eq_of_ne (placeholders_placeholder unbraced) (List.cons_ne_nil _ _)
  obtain ⟨front, back, rfl⟩ := starts
  induction front with
  | nil =>
    rw [List.nil_append, List.append_assoc]
    exact here (List.mem_append_right back braced)
  | cons c front ih =>
    simp only [List.cons_append] at ih ⊢
    by_cases first : c = '#' ∧ (front ++ opening ++ back ++ rest).head? = some '\x7b'
    · obtain ⟨rfl, brace⟩ := first
      cases front with
      | nil => cases brace
      | cons d front =>
        cases brace
        exact here (List.mem_append_right (front ++ opening ++ back) braced)
    · rwa [placeholders_cons (not_and_or.mp first)]

/-! ## Operands -/

theorem length_of_mapM {ε α β : Type} {f : α → Except ε β} {items : List α} {made : List β}
    (ran : items.mapM f = .ok made) : made.length = items.length := by
  induction items generalizing made with
  | nil =>
    cases ran
    rfl
  | cons a items ih =>
    rw [List.mapM_cons] at ran
    cases first : f a with
    | error e => simp [first] at ran; cases ran
    | ok b =>
      cases rest : items.mapM f with
      | error e => simp [first, rest] at ran; cases ran
      | ok bs =>
        simp only [first, rest] at ran
        cases ran
        exact congrArg (· + 1) (ih rest)

theorem readParams_congr {text text' : String}
    (same : placeholders text.toList = placeholders text'.toList) :
    readParams text = readParams text' := by
  unfold readParams
  rw [same]

theorem length_of_readParams {text : String} {params : List (Option String)}
    (read : readParams text = .ok params) : params.length = (placeholders text.toList).length :=
  length_of_mapM read

end Template

/-- A template that accepts its operands renders what it makes of them. -/
theorem Template.render_of_check {template : Template} {operands : List Expr}
    (h : template.check operands = .ok ()) (next : NodeId) :
    template.render operands next =
      (.ok (template.build operands next).1, (template.build operands next).2) := by
  unfold render
  rw [h]
  rfl

theorem Ty.assignableTo_of_isClass {ty : Ty} {fqn : String} (h : ty.isClass fqn = true) :
    ty.assignableTo fqn = true := by
  cases ty with
  | cls name supers =>
    have : name = fqn := by simpa [isClass, fqn?] using h
    simp [assignableTo, this]
  | _ => simp [isClass, fqn?] at h

/-- An operand whose type is assignable to the class that a placeholder names fits it. -/
theorem Template.checkOperand_of_assignable {operand : Expr} {fqn : String} (index : Nat)
    (fits : operand.ty.assignableTo fqn = true) : checkOperand index (some fqn) operand = .ok () := by
  unfold checkOperand
  cases type : operand.ty with
  | cls name supers => exact if_pos (type ▸ fits)
  | null => rfl
  | _ => cases type ▸ fits

/-- A template whose operands are assignable to the classes it names accepts them. -/
theorem Template.check_pair {template : Template} {first second : String} {a b : Expr}
    (params : template.params = [some first, some second])
    (ha : a.ty.assignableTo first = true) (hb : b.ty.assignableTo second = true) :
    template.check [a, b] = .ok () := by
  simp only [check, params, List.length_cons, List.length_nil, ne_eq, not_true_eq_false,
    ↓reduceIte, checkOperands, checkOperand_of_assignable _ ha, checkOperand_of_assignable _ hb]
  rfl

/-! ## Guards -/

/-- The text of a guard before its message. -/
def guardFront (variant : GuardVariant) (thrown : ThrownException) : String :=
  "if (!" ++ variant.checkText ++ ") \x7b\n    throw new " ++ Fqn.simple thrown.fqn ++ "(\""

/-- The types of the operands of a guard, as its template names them. -/
def GuardVariant.operandTypes : GuardVariant → List (Option String)
  | fileInFile => [some Fqn.file, some Fqn.file]
  | fileInString => [some Fqn.file, some Fqn.string]
  | pathInPath => [some Fqn.path, some Fqn.path]

/-- The statement that a guard is. -/
def mkGuard (variant : GuardVariant) (thrown : ThrownException) (message : String)
    (tainted parent : Expr) : Fresh Stmt := do
  let condition ← Expr.mkNot (← variant.check (← tainted.freshCopy) (← parent.freshCopy))
  let body ← Stmt.mkBlock [← Stmt.mkThrowNew thrown.ty message]
  Stmt.mkIf condition body none

/-- `if (!check) { throw new Exception("message"); }` -/
inductive Stmt.ThrowsMessage (thrown : ThrownException) (message : String) : Stmt → Prop where
  | intro {id id₁ id₂ id₃ id₄ id₅ id₆ : NodeId} {check : Expr} :
      ThrowsMessage thrown message ⟨id, .ifElse ⟨id₁, .boolean, .unary .not check⟩
        ⟨id₂, .block ⟨id₃, false, [⟨id₄, .throwStmt ⟨id₅, thrown.ty, .create (Fqn.simple thrown.fqn)
          [⟨id₆, .string, .literal (.string message)⟩] (some (.constructor thrown.ty [.string]))⟩⟩]⟩⟩ none⟩

/-- The operands are of the types that the variant compares, or of subtypes. -/
def GuardVariant.Fits (variant : GuardVariant) (operands : List Expr) : Prop :=
  List.Forall₂ (fun operand param => ∃ fqn, param = some fqn ∧ operand.ty.assignableTo fqn = true)
    operands variant.operandTypes

section

variable {variant : GuardVariant} {thrown : ThrownException} {message : String}

open Template

theorem GuardVariant.closed_checkText (variant : GuardVariant) :
    Closed variant.checkText.toList := by
  have asks (text inner : String) (unbraced : '\x7d' ∉ inner.toList)
      (split_ : text = "#\x7b" ++ inner ++ "\x7d") : Closed text.toList := by
    rw [split_]
    simpa [opening] using closed_placeholder unbraced
  have plain (text : String) (plain : '#' ∉ text.toList) : Closed text.toList :=
    closed_of_not_mem plain
  have file := asks "#\x7bany(java.io.File)\x7d" "any(java.io.File)" (by decide +kernel)
    (by decide +kernel)
  have string := asks "#\x7bany(java.lang.String)\x7d" "any(java.lang.String)" (by decide +kernel)
    (by decide +kernel)
  have path := asks "#\x7bany(java.nio.file.Path)\x7d" "any(java.nio.file.Path)"
    (by decide +kernel) (by decide +kernel)
  cases variant with
  | fileInFile =>
    have pieces : checkText .fileInFile = "#\x7bany(java.io.File)\x7d" ++
        ".toPath().normalize().startsWith(" ++ "#\x7bany(java.io.File)\x7d" ++
        ".toPath().normalize())" := by decide +kernel
    rw [pieces, String.toList_append, String.toList_append, String.toList_append]
    exact ((file.append (plain _ (by decide +kernel))).append file).append
      (plain _ (by decide +kernel))
  | fileInString =>
    have pieces : checkText .fileInString = "#\x7bany(java.io.File)\x7d" ++
        ".toPath().normalize().startsWith(" ++ "#\x7bany(java.lang.String)\x7d" ++ ")" := by
      decide +kernel
    rw [pieces, String.toList_append, String.toList_append, String.toList_append]
    exact ((file.append (plain _ (by decide +kernel))).append string).append
      (plain _ (by decide +kernel))
  | pathInPath =>
    have pieces : checkText .pathInPath = "#\x7bany(java.nio.file.Path)\x7d" ++
        ".normalize().startsWith(" ++ "#\x7bany(java.nio.file.Path)\x7d" ++ ".normalize())" := by
      decide +kernel
    rw [pieces, String.toList_append, String.toList_append, String.toList_append]
    exact ((path.append (plain _ (by decide +kernel))).append path).append
      (plain _ (by decide +kernel))

theorem closed_guardFront (variant : GuardVariant) (thrown : ThrownException) :
    Closed (guardFront variant thrown).toList := by
  have name : '#' ∉ (Fqn.simple thrown.fqn).toList := by cases thrown <;> decide +kernel
  simp only [guardFront, String.toList_append]
  refine ((((closed_of_not_mem ?_).append variant.closed_checkText).append
    (closed_of_not_mem ?_)).append (closed_of_not_mem name)).append (closed_of_not_mem ?_) <;>
    decide +kernel

/-- The placeholders of a guard are those of its check and those of its message. -/
theorem placeholders_guardText (variant : GuardVariant) (thrown : ThrownException)
    (message : String) : placeholders (guardText variant thrown message).toList =
      placeholders (guardFront variant thrown).toList ++
        placeholders (message.toList ++ "\");\n\x7d".toList) := by
  rw [← closed_guardFront, ← String.toList_append, ← String.toList_append, ← String.append_assoc]
  rfl

theorem placeholders_guardText_of_plain (plain : ¬ opening <:+: message.toList) :
    placeholders (guardText variant thrown message).toList =
      placeholders (guardFront variant thrown).toList := by
  have after : placeholders (message.toList ++ "\");\n\x7d".toList) =
      placeholders ");\n\x7d".toList := placeholders_plain plain (by decide)
  have none : placeholders ");\n\x7d".toList = [] := by decide +kernel
  rw [placeholders_guardText, after, none, List.append_nil]

/-- No placeholder starts in the message of a guard where no other is set. -/
theorem plain_badZipEntry : ¬ opening <:+: badZipEntry.toList := by decide +kernel

theorem readParams_badZipEntry (variant : GuardVariant) (thrown : ThrownException) :
    readParams (guardText variant thrown badZipEntry) = .ok variant.operandTypes := by
  have read : (readParams (guardText variant thrown badZipEntry)).toOption =
      some variant.operandTypes := by
    cases variant <;> cases thrown <;> decide +kernel
  cases h : readParams (guardText variant thrown badZipEntry) with
  | error e => rw [h] at read; cases read
  | ok params => rw [h] at read; cases read; rfl

/-- A message without placeholders leaves the operands as they are. -/
theorem readParams_guardText (plain : ¬ opening <:+: message.toList) :
    readParams (guardText variant thrown message) = .ok variant.operandTypes := by
  rw [← readParams_badZipEntry variant thrown]
  exact readParams_congr ((placeholders_guardText_of_plain plain).trans
    (placeholders_guardText_of_plain plain_badZipEntry).symm)

/-- Any other message adds some. -/
theorem readParams_guardText_iff :
    readParams (guardText variant thrown message) = .ok variant.operandTypes ↔
      ¬ opening <:+: message.toList := by
  refine ⟨fun read starts => ?_, readParams_guardText⟩
  have more : placeholders (message.toList ++ "\");\n\x7d".toList) ≠ [] :=
    placeholders_ne_nil starts (by decide +kernel)
  have standard := length_of_readParams (readParams_badZipEntry variant thrown)
  have length := length_of_readParams read
  rw [placeholders_guardText_of_plain plain_badZipEntry] at standard
  rw [placeholders_guardText, List.length_append] at length
  exact more (List.length_eq_zero_iff.mp (by omega))

/-- The template of a guard whose message is without placeholders: it takes the operands of its
variant and makes statements. -/
theorem guardTemplate_of_plain (variant : GuardVariant) (thrown : ThrownException)
    (plain : ¬ opening <:+: message.toList) :
    ∃ template, guardTemplate variant thrown message = .ok template ∧
      template.params = variant.operandTypes ∧
      ∀ operands next, ∃ stmts, (template.build operands next).1 = .statements stmts := by
  simp only [guardTemplate, Template.parse, readParams_guardText plain]
  refine ⟨_, rfl, rfl, fun operands next => ?_⟩
  match operands with
  | [] | [_] | _ :: _ :: _ :: _ => exact ⟨_, rfl⟩
  | [tainted, parent] => exact ⟨_, rfl⟩

/-- The template of a guard makes the guard. -/
theorem guardTemplate_build {variant : GuardVariant} {thrown : ThrownException} {message : String}
    {template : Template} (h : guardTemplate variant thrown message = .ok template)
    {tainted parent : Expr} {guard : Stmt} {next used : NodeId}
    (made : mkGuard variant thrown message tainted parent next = (guard, used)) :
    template.build [tainted, parent] next = (.statements [guard], used) := by
  unfold guardTemplate Template.parse at h
  cases params : Template.readParams (guardText variant thrown message) with
  | error e =>
    rw [params] at h
    cases h
  | ok params' =>
    rw [params] at h
    cases h
    cases made
    rfl

theorem mkGuard_throwsMessage (variant : GuardVariant) (thrown : ThrownException)
    (message : String) (tainted parent : Expr) (next : NodeId) :
    (mkGuard variant thrown message tainted parent next).1.ThrowsMessage thrown message := by
  exact .intro

/-- The operands that a variant is chosen for fit its template. -/
theorem GuardVariant.check_of_select {template : Template} {variant : GuardVariant}
    {tainted parent : Expr} (params : template.params = variant.operandTypes)
    (selected : select? tainted.ty parent.ty = some variant) :
    template.check [tainted, parent] = .ok () := by
  unfold select? at selected
  split at selected
  next h =>
    cases selected
    rw [Bool.and_eq_true] at h
    exact Template.check_pair params (Ty.assignableTo_of_isClass h.1) (Ty.assignableTo_of_isClass h.2)
  next =>
    split at selected
    next h =>
      cases selected
      rw [Bool.and_eq_true] at h
      exact Template.check_pair params (Ty.assignableTo_of_isClass h.1) (Ty.assignableTo_of_isClass h.2)
    next =>
      split at selected
      next h =>
        cases selected
        rw [Bool.and_eq_true] at h
        exact Template.check_pair params (Ty.assignableTo_of_isClass h.1) (Ty.assignableTo_of_isClass h.2)
      next => cases selected

theorem GuardVariant.check_of_fits {template : Template} {operands : List Expr}
    (params : template.params = variant.operandTypes) (fits : variant.Fits operands) :
    template.check operands = .ok () ∧ ∃ tainted parent, operands = [tainted, parent] := by
  have two : ∃ first second, variant.operandTypes = [some first, some second] := by
    cases variant <;> exact ⟨_, _, rfl⟩
  obtain ⟨first, second, types⟩ := two
  unfold Fits at fits
  rw [types] at fits
  match operands, fits with
  | [tainted, parent], .cons ⟨_, named, fits₁⟩ (.cons ⟨_, named', fits₂⟩ .nil) =>
    cases named
    cases named'
    exact ⟨Template.check_pair (params.trans types) fits₁ fits₂, tainted, parent, rfl⟩

/-- A guard can be made with a message, takes the operands of its variant, and throws the message
as it is, exactly if no placeholder starts in the message. -/
theorem guardTemplate_isText_iff (variant : GuardVariant) (thrown : ThrownException)
    (message : String) :
    (∃ template, guardTemplate variant thrown message = .ok template ∧
      template.params = variant.operandTypes ∧
      ∀ operands, variant.Fits operands → ∀ next, ∃ guard used,
        template.render operands next = (.ok (.statements [guard]), used) ∧
          guard.ThrowsMessage thrown message) ↔
      ¬ Template.opening <:+: message.toList := by
  constructor
  · rintro ⟨template, made, params, -⟩
    refine (@readParams_guardText_iff variant thrown message).mp ?_
    unfold guardTemplate Template.parse at made
    cases read : readParams (guardText variant thrown message) with
    | error e =>
      rw [read] at made
      cases made
    | ok params' =>
      rw [read] at made
      cases made
      exact congrArg _ params
  · intro plain
    obtain ⟨template, made, params, -⟩ := guardTemplate_of_plain variant thrown plain
    refine ⟨template, made, params, fun operands fits next => ?_⟩
    obtain ⟨accepted, tainted, parent, rfl⟩ := GuardVariant.check_of_fits params fits
    cases guarded : mkGuard variant thrown message tainted parent next with
    | mk guard used =>
      refine ⟨guard, used, ?_, ?_⟩
      · rw [Template.render_of_check accepted, guardTemplate_build made guarded]
      · have throws := mkGuard_throwsMessage variant thrown message tainted parent next
        rwa [guarded] at throws

end

end JavaMend
