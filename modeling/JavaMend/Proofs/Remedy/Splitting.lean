import JavaMend.Proofs.Remedy.Made

/-!
# What a split path prints

`new File(parent, child)` stands for the path that a text named before. Read as texts, the
directory, the separator that the cut leaves out and the child make up what the path
printed (`Normalize.text_splitPath`), whatever the operands stand for.

Operands are put together again from the left, and such a sum is a text from its first
text on only: what comes before is added up. A path has a text among its first two
operands, so the directory has as well. A child need not: `"out/" + 1 + 2 + ".bin"` is cut
behind `"out/"`, and `1 + 2 + ".bin"` is no longer `12.bin`. The theorem asks for a text
among the first two operands of the child, if it has two.
-/

namespace JavaMend.PathTraversal

/-- What expressions stand for, and how sums are read. -/
structure Reading (Value : Type) where
  /-- The value of an expression that is no sum. -/
  operand : Expr → Value
  /-- What a value looks like in a text. -/
  printed : Value → String
  ofText : String → Value
  /-- What two values add up to, for a sum of a type other than the text's. -/
  sum : Ty → Value → Value → Value
  printed_ofText : ∀ text, printed (ofText text) = text

namespace Reading

variable {Value : Type} (r : Reading Value)

/-- The value of an expression: a sum that is a text joins what its operands print. -/
def value (e : Expr) : Value :=
  match e with
  | ⟨_, _, .parens inner⟩ => value inner
  | ⟨_, ty, .binary .add left right⟩ =>
    if ty.isString then r.ofText (r.printed (value left) ++ r.printed (value right))
    else r.sum ty (value left) (value right)
  | e => r.operand e

/-- What an expression prints. -/
def text (e : Expr) : String := r.printed (r.value e)

/-- What expressions print one after the other. -/
def texts (es : List Expr) : String := String.join (es.map r.text)

theorem texts_cons (e : Expr) (es : List Expr) : r.texts (e :: es) = r.text e ++ r.texts es :=
  String.join_cons

theorem texts_append (es es' : List Expr) : r.texts (es ++ es') = r.texts es ++ r.texts es' := by
  unfold texts
  rw [List.map_append, String.join_append]

theorem texts_singleton (e : Expr) : r.texts [e] = r.text e := by
  rw [texts_cons]
  exact String.append_empty

theorem text_unparen (e : Expr) : r.text e.unparen = r.text e := by
  fun_induction Expr.unparen e with
  | case1 id ty inner ih => exact ih
  | case2 => rfl

theorem text_add {left right : Expr} {id : NodeId} {ty : Ty} (isText : ty.isString = true) :
    r.text ⟨id, ty, .binary .add left right⟩ = r.text left ++ r.text right := by
  show r.printed (if ty.isString then _ else _) = _
  rw [if_pos isText]
  exact r.printed_ofText _

end Reading

namespace Normalize

/-- Is each sum on the way to the leftmost operand a text only if one of its operands is? So
it is for sums that `Expr.mkAdd` types. -/
def typedByAdd (e : Expr) : Bool :=
  match e with
  | ⟨_, ty, .binary .add left right⟩ =>
    (!ty.isString || left.ty.isString || right.ty.isString) && typedByAdd left
  | _ => true

theorem typedByAdd_mkAdd {left : Expr} (typed : typedByAdd left = true) (right : Expr) :
    (Expr.mkAdd left right).Gives fun sum => typedByAdd sum = true := by
  intro next
  show ((!(if left.ty.isString || right.ty.isString then Ty.string else left.ty).isString ||
    left.ty.isString || right.ty.isString) && typedByAdd left) = true
  rw [typed, Bool.and_true]
  split
  next text => rw [Bool.or_assoc, text, Bool.or_true]
  next => cases left.ty.isString <;> simp

/-- Is a sum of the operands a text from its first `+` on? -/
def startsAsText : List Expr → Bool
  | first :: second :: _ => first.ty.isString || second.ty.isString
  | _ => true

theorem startsAsText_take {operands : List Expr} (starts : startsAsText operands = true)
    (count : Nat) : startsAsText (operands.take count) = true := by
  match operands, count with
  | [], _ => rw [List.take_nil]; rfl
  | [_], 0 => rfl
  | [_], _ + 1 => rw [List.take_succ_cons, List.take_nil]; rfl
  | _ :: _ :: _, 0 => rfl
  | _ :: _ :: _, 1 => rfl
  | _ :: _ :: _, _ + 2 => exact starts

theorem startsAsText_operandsBefore {e : Expr} {after : List Expr} (typed : typedByAdd e = true)
    (starts : startsAsText (e :: after) = true) :
    startsAsText (operandsBefore e after) = true := by
  fun_induction operandsBefore e after with
  | case1 after id ty left right isText ih =>
    obtain ⟨self, left⟩ := Bool.and_eq_true_iff.mp typed
    rw [isText] at self
    exact ih left self
  | case2 => exact starts
  | case3 => exact starts

section

variable {Value : Type} (r : Reading Value)

/-! ## Taking a sum apart -/

theorem texts_operandsBefore (e : Expr) (after : List Expr) :
    r.texts (operandsBefore e after) = r.text e ++ r.texts after := by
  fun_induction operandsBefore e after with
  | case1 after id ty left right isText ih =>
    rw [ih, r.texts_cons, r.text_add isText, String.append_assoc]
  | case2 => exact r.texts_cons _ _
  | case3 => exact r.texts_cons _ _

/-- The operands of a path print what the path prints. -/
theorem texts_operandsOf (path : Expr) : r.texts (operandsOf path) = r.text path := by
  rw [operandsOf, texts_operandsBefore, r.text_unparen]
  exact String.append_empty

/-! ## Putting it together again -/

theorem mkAdd_text {left right : Expr} (text : (left.ty.isString || right.ty.isString) = true) :
    (Expr.mkAdd left right).Gives fun sum =>
      sum.ty.isString = true ∧ r.text sum = r.text left ++ r.text right := by
  intro next
  have isText : (if left.ty.isString || right.ty.isString then Ty.string else left.ty).isString =
      true := by
    rw [if_pos text]
    rfl
  exact ⟨isText, r.text_add isText⟩

/-- From a text on, operands are joined. -/
theorem sum_text {first : Expr} (text : first.ty.isString = true) (rest : List Expr) :
    (rest.foldlM Expr.mkAdd first).Gives fun sum => r.text sum = r.text first ++ r.texts rest := by
  induction rest generalizing first with
  | nil => exact .pure String.append_empty.symm
  | cons second rest ih =>
    rw [List.foldlM_cons]
    refine (mkAdd_text r (Bool.or_eq_true_iff.mpr (.inl text))).bind fun sum ⟨sumText, printed⟩ => ?_
    refine (ih sumText).mono fun all same => ?_
    rw [same, printed, r.texts_cons, String.append_assoc]

theorem mkConcatenation?_text {operands : List Expr} (starts : startsAsText operands = true) :
    (mkConcatenation? operands).Gives fun sum => ∀ e ∈ sum, r.text e = r.texts operands := by
  match operands with
  | [] => exact .pure fun _ none => nomatch none
  | [only] =>
    refine .pure ?_
    rintro _ ⟨⟩
    exact (r.texts_singleton only).symm
  | first :: second :: rest =>
    have sums : ((second :: rest).foldlM Expr.mkAdd first).Gives
        fun sum => r.text sum = r.texts (first :: second :: rest) := by
      rw [List.foldlM_cons]
      refine (mkAdd_text r starts).bind fun sum ⟨sumText, printed⟩ => ?_
      refine (sum_text r sumText rest).mono fun all same => ?_
      rw [same, printed, r.texts_cons, r.texts_cons, String.append_assoc]
    refine sums.bind fun sum same => .pure ?_
    rintro _ ⟨⟩
    exact same

end

/-! ## The cut -/

/-- The separator that a path is cut around, if one stands between its operands. -/
def bareSeparator? (operands : List Expr) : Option Expr :=
  (firstBetween? operands 1 (operands.length - 1) Expr.isSeparator).bind (operands[·]?)

/-- A cut leaves out the separator that it is made around, and nothing else. -/
theorem drop_of_cut {operands : List Expr} {userInput : List NodeId} {parentEnd childStart : Nat}
    (found : cut? operands userInput = some (parentEnd, childStart)) :
    operands.drop parentEnd = (bareSeparator? operands).toList ++ operands.drop childStart := by
  unfold cut? at found
  unfold bareSeparator?
  dsimp only at found
  split at found
  next i _ at_ =>
    cases found
    have holds := List.find?_some at_
    obtain ⟨separator, here, -⟩ := (Option.any_eq_true _ _).mp (Bool.and_eq_true_iff.mp holds).2
    obtain ⟨within, rfl⟩ := List.getElem?_eq_some_iff.mp here
    rw [at_, Option.bind_some, here, List.drop_eq_getElem_cons within]
    rfl
  next none_ _ =>
    cases found
    rw [none_]
    rfl
  next none_ _ =>
    obtain ⟨i, -, at_⟩ := Option.map_eq_some_iff.mp found
    cases at_
    rw [none_]
    rfl

/-- What the operands of a path print, cut into a directory, a separator and a child. -/
theorem texts_of_cut {Value : Type} (r : Reading Value) {operands : List Expr}
    {userInput : List NodeId} {parentEnd childStart : Nat}
    (found : cut? operands userInput = some (parentEnd, childStart)) :
    r.texts (operands.take parentEnd) ++ r.texts (bareSeparator? operands).toList ++
      r.texts (operands.drop childStart) = r.texts operands := by
  rw [String.append_assoc, ← r.texts_append, ← drop_of_cut found, ← r.texts_append,
    List.take_append_drop]

/-- A path that is split prints what it printed: the directory, the separator that the cut
leaves out, the child. -/
theorem text_splitPath {Value : Type} (r : Reading Value) {path : Expr}
    {userInput : List NodeId} (typed : typedByAdd path.unparen = true)
    (starts : ∀ cut ∈ cut? (operandsOf path) userInput,
      startsAsText ((operandsOf path).drop cut.2) = true) :
    (splitPath? path userInput).Gives fun new => ∀ file ∈ new, ∃ parent child constructor,
      file.form = .create "File" [parent, child] (some constructor) ∧
      r.text parent ++ r.texts (bareSeparator? (operandsOf path)).toList ++ r.text child =
        r.text path := by
  have begins : startsAsText (operandsOf path) = true := startsAsText_operandsBefore typed rfl
  refine splitPath?_gives
    (fun cut found _ => mkConcatenation?_text r (startsAsText_take begins cut.1))
    (fun cut found => mkConcatenation?_text r (starts cut found))
    (fun cut found parent child constructor sameParent sameChild chosen next => ?_)
  refine ⟨parent, child, constructor, ?_, ?_⟩
  · show ExprForm.create (constructor.owner.simpleName?.getD "") [parent, child] _ = _
    rw [constructorFor?_owner chosen]
    rfl
  · rw [sameParent, sameChild, texts_of_cut r found, texts_operandsOf]

/-- Whole numbers, and texts. -/
def numbersAndTexts (name : String) : Reading (Int ⊕ String) where
  operand e :=
    match e.form with
    | .literal (.int n) => .inl n
    | .literal (.string text) => .inr text
    | _ => .inr name
  printed
    | .inl n => toString n
    | .inr text => text
  ofText := .inr
  sum _
    | .inl m, .inl n => .inl (m + n)
    | _, v => v
  printed_ofText _ := rfl

/-- `"out" + "/" + 1 + name + 2`, a path with numbers on both sides of a text. -/
def numbered : Expr :=
  let made : Fresh Expr := do
    let directory ← Expr.mkAdd (← Expr.mkString "out") (← Expr.mkString "/")
    let start ← Expr.mkAdd directory (← Expr.mkInt 1)
    Expr.mkAdd (← Expr.mkAdd start (← Expr.mkIdent "name" .string)) (← Expr.mkInt 2)
  (made 0).1

theorem text_splitPath_numbered :
    (numbersAndTexts "a").text numbered = "out/1a2" ∧
      ∃ file, (splitPath? numbered [] 9).1 = some file ∧
        ∃ parent child constructor,
          file.form = .create "File" [parent, child] (some constructor) ∧
          (numbersAndTexts "a").text parent ++
              (numbersAndTexts "a").texts (bareSeparator? (operandsOf numbered)).toList ++
              (numbersAndTexts "a").text child = (numbersAndTexts "a").text numbered := by
  have isSplit : (splitPath? numbered [] 9).1.isSome = true := by decide +kernel
  obtain ⟨file, split⟩ := Option.isSome_iff_exists.mp isSplit
  refine ⟨by decide +kernel, file, split, ?_⟩
  exact text_splitPath (numbersAndTexts "a") (by decide +kernel) (by decide +kernel) 9 file split

end Normalize

end JavaMend.PathTraversal
