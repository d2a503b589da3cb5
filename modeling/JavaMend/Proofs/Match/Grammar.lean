import Mathlib.Data.List.Basic
import Mathlib.Data.List.Forall2
import Mathlib.Data.List.TakeWhile
import JavaMend.Match.Signature
import JavaMend.Proofs.Match.Descriptor

/-!
# The grammar of descriptors

`Signature.IsDescriptor` says which texts are descriptors, and of which pieces, without
reading them: runs of characters, segments with dots between them, pairs of brackets,
pieces with commas between them. `Signature.parse_eq_ok_iff` says that these are the texts
that can be read, and that what is read from one is the signature of its pieces.

The grammar has no say in where a piece begins. That the pieces of a descriptor are
determined all the same is a part of the statement.
-/

namespace JavaMend

/-! ## Patterns -/

/-- A segment of a pattern, or the pattern of a name: word characters, `$` and `*`, and at
least one of them. -/
def IsRun (cs : List Char) : Prop :=
  cs ≠ [] ∧ ∀ c ∈ cs, CharClass.isWord c = true ∨ c = '$' ∨ c = '*'

/-- Segments with one or two dots between them. -/
inductive Segments : List Char → Prop where
  | one {segment : List Char} (run : IsRun segment) : Segments segment
  | dot {segment rest : List Char} (run : IsRun segment) (more : Segments rest) :
      Segments (segment ++ '.' :: rest)
  | dots {segment rest : List Char} (run : IsRun segment) (more : Segments rest) :
      Segments (segment ++ '.' :: '.' :: rest)

/-- The brackets of an array type of so many dimensions. -/
def brackets (dimensions : Nat) : List Char := (List.replicate dimensions ['[', ']']).flatten

/-- The pattern of a type: segments, and the brackets of an array type. -/
def IsTypePattern (text : List Char) : Prop :=
  ∃ segments dimensions, Segments segments ∧ text = segments ++ brackets dimensions

@[simp] theorem brackets_zero : brackets 0 = [] := rfl

@[simp] theorem brackets_succ (n : Nat) : brackets (n + 1) = '[' :: ']' :: brackets n := by
  simp [brackets, List.replicate_succ]

theorem isSegmentChar_iff {c : Char} :
    Glob.isSegmentChar c = true ↔ CharClass.isWord c = true ∨ c = '$' ∨ c = '*' := by
  simp [Glob.isSegmentChar, isNameChar, or_assoc]

theorem isRun_iff {cs : List Char} :
    IsRun cs ↔ cs ≠ [] ∧ ∀ c ∈ cs, Glob.isSegmentChar c = true := by
  simp only [IsRun, isSegmentChar_iff]

theorem not_isSegmentChar_dot : Glob.isSegmentChar '.' = false := by decide

theorem not_isSegmentChar_bracket : Glob.isSegmentChar '[' = false := by decide

/-- A run goes on, or it ends with its first character. -/
theorem isRun_cons {c : Char} {cs : List Char} :
    IsRun (c :: cs) ↔ Glob.isSegmentChar c = true ∧ (cs = [] ∨ IsRun cs) := by
  rw [isRun_iff, isRun_iff]
  cases cs with
  | nil => simp
  | cons d cs => simp

namespace Segments

theorem ne_nil {text : List Char} (segments : Segments text) : text ≠ [] := by
  cases segments with
  | one run => exact run.1
  | dot _ _ => simp
  | dots _ _ => simp

/-- What can follow the first character of segments: nothing, more of the segment, or one or
two dots and more segments. -/
theorem cons_iff {c : Char} {text : List Char} : Segments (c :: text) ↔
    Glob.isSegmentChar c = true ∧ (text = [] ∨ Segments text ∨
      (∃ rest, text = '.' :: rest ∧ Segments rest) ∨
        ∃ rest, text = '.' :: '.' :: rest ∧ Segments rest) := by
  constructor
  · intro segments
    generalize whole : c :: text = cs at segments
    cases segments with
    | one run =>
      subst whole
      obtain ⟨first, rfl | more⟩ := isRun_cons.mp run
      · exact ⟨first, .inl rfl⟩
      · exact ⟨first, .inr (.inl (.one more))⟩
    | @dot segment rest run more =>
      cases segment with
      | nil => exact (run.1 rfl).elim
      | cons d segment =>
        obtain ⟨rfl, rfl⟩ := List.cons.inj whole
        obtain ⟨first, rfl | run⟩ := isRun_cons.mp run
        · exact ⟨first, .inr (.inr (.inl ⟨rest, rfl, more⟩))⟩
        · exact ⟨first, .inr (.inl (.dot run more))⟩
    | @dots segment rest run more =>
      cases segment with
      | nil => exact (run.1 rfl).elim
      | cons d segment =>
        obtain ⟨rfl, rfl⟩ := List.cons.inj whole
        obtain ⟨first, rfl | run⟩ := isRun_cons.mp run
        · exact ⟨first, .inr (.inr (.inr ⟨rest, rfl, more⟩))⟩
        · exact ⟨first, .inr (.inl (.dots run more))⟩
  · rintro ⟨first, shape⟩
    have single : IsRun [c] := isRun_cons.mpr ⟨first, .inl rfl⟩
    rcases shape with rfl | more | ⟨rest, rfl, more⟩ | ⟨rest, rfl, more⟩
    · exact .one single
    · cases more with
      | one run => exact .one (isRun_cons.mpr ⟨first, .inr run⟩)
      | dot run more => exact .dot (isRun_cons.mpr ⟨first, .inr run⟩) more
      | dots run more => exact .dots (isRun_cons.mpr ⟨first, .inr run⟩) more
    · exact .dot single more
    · exact .dots single more

theorem chars {text : List Char} (segments : Segments text) :
    ∀ c ∈ text, Glob.isSegmentChar c = true ∨ c = '.' := by
  have inside {segment : List Char} (run : IsRun segment) :
      ∀ c ∈ segment, Glob.isSegmentChar c = true ∨ c = '.' :=
    fun c mem => .inl ((isRun_iff.mp run).2 c mem)
  induction segments with
  | one run => exact inside run
  | dot run _ ih => simpa [or_imp, forall_and] using ⟨inside run, ih⟩
  | dots run _ ih => simpa [or_imp, forall_and] using ⟨inside run, ih⟩

end Segments

namespace IsTypePattern

theorem ne_nil {text : List Char} (pattern : IsTypePattern text) : text ≠ [] := by
  obtain ⟨segments, n, isSegments, rfl⟩ := pattern
  simp [isSegments.ne_nil]

/-- What can follow the first character of a pattern: the same as for segments, and
brackets. -/
theorem cons_iff {c : Char} {text : List Char} : IsTypePattern (c :: text) ↔
    Glob.isSegmentChar c = true ∧ ((∃ n, text = brackets n) ∨ IsTypePattern text ∨
      (∃ rest, text = '.' :: rest ∧ IsTypePattern rest) ∨
        ∃ rest, text = '.' :: '.' :: rest ∧ IsTypePattern rest) := by
  constructor
  · rintro ⟨segments, n, isSegments, split⟩
    cases segments with
    | nil => exact (isSegments.ne_nil rfl).elim
    | cons d segments =>
      obtain ⟨rfl, rfl⟩ := List.cons.inj split
      obtain ⟨first, shape⟩ := Segments.cons_iff.mp isSegments
      refine ⟨first, ?_⟩
      rcases shape with rfl | more | ⟨rest, rfl, more⟩ | ⟨rest, rfl, more⟩
      · exact .inl ⟨n, rfl⟩
      · exact .inr (.inl ⟨_, n, more, rfl⟩)
      · exact .inr (.inr (.inl ⟨_, rfl, _, n, more, rfl⟩))
      · exact .inr (.inr (.inr ⟨_, rfl, _, n, more, rfl⟩))
  · rintro ⟨first, shape⟩
    rcases shape with ⟨n, rfl⟩ | ⟨segments, n, more, rfl⟩ | ⟨_, rfl, segments, n, more, rfl⟩ |
      ⟨_, rfl, segments, n, more, rfl⟩
    · exact ⟨[c], n, Segments.cons_iff.mpr ⟨first, .inl rfl⟩, rfl⟩
    · exact ⟨c :: segments, n, Segments.cons_iff.mpr ⟨first, .inr (.inl more)⟩, rfl⟩
    · exact ⟨c :: '.' :: segments, n,
        Segments.cons_iff.mpr ⟨first, .inr (.inr (.inl ⟨_, rfl, more⟩))⟩, rfl⟩
    · exact ⟨c :: '.' :: '.' :: segments, n,
        Segments.cons_iff.mpr ⟨first, .inr (.inr (.inr ⟨_, rfl, more⟩))⟩, rfl⟩

/-- No pattern begins with a character that is in no segment. -/
theorem not_cons {c : Char} {text : List Char} (apart : Glob.isSegmentChar c = false) :
    ¬ IsTypePattern (c :: text) := by
  intro pattern
  exact Bool.false_ne_true (apart.symm.trans (cons_iff.mp pattern).1)

end IsTypePattern

/-! ## Reading patterns -/

namespace Glob

theorem isBrackets_iff {text : List Char} : isBrackets text = true ↔ ∃ n, text = brackets n := by
  induction text using isBrackets.induct with
  | case1 => simpa [isBrackets] using ⟨0, rfl⟩
  | case2 rest ih =>
    rw [isBrackets, ih]
    constructor
    · rintro ⟨n, same⟩
      exact ⟨n + 1, by simp [same]⟩
    · rintro ⟨n, same⟩
      cases n with
      | zero => cases same
      | succ n => exact ⟨n, by simpa using same⟩
  | case3 text noNil noPair =>
    rw [isBrackets.eq_3 _ noNil noPair]
    simp only [Bool.false_eq_true, false_iff]
    rintro ⟨n, same⟩
    cases n with
    | zero => exact noNil same
    | succ n => exact noPair _ (by simpa using same)

/-- Brackets begin with a bracket. -/
theorem not_brackets {c : Char} {text : List Char} (other : c ≠ '[') (n : Nat) :
    c :: text ≠ brackets n := by
  cases n with
  | zero => simp
  | succ n => simp [other]

/-- What can follow the first character of a pattern is read by `isSegmentsEnd`. -/
theorem isSegmentsEnd_iff {c : Char} {text : List Char} (first : isSegmentChar c = true) :
    isSegmentsEnd text = true ↔ IsTypePattern (c :: text) := by
  have noDot {rest : List Char} : ¬ IsTypePattern ('.' :: rest) :=
    IsTypePattern.not_cons not_isSegmentChar_dot
  -- A dot is followed by a pattern, which the induction hypothesis is about.
  have go {d : Char} {rest : List Char}
      (ih : ∀ {c : Char}, isSegmentChar c = true →
        (isSegmentsEnd rest = true ↔ IsTypePattern (c :: rest))) :
      (isSegmentChar d && isSegmentsEnd rest) = true ↔ IsTypePattern (d :: rest) := by
    rw [Bool.and_eq_true]
    constructor
    · rintro ⟨segment, more⟩
      exact (ih segment).mp more
    · intro pattern
      have segment := (IsTypePattern.cons_iff.mp pattern).1
      exact ⟨segment, (ih segment).mpr pattern⟩
  induction text using isSegmentsEnd.induct generalizing c with
  | case1 d rest ih =>
    rw [isSegmentsEnd, go ih]
    constructor
    · intro pattern
      exact IsTypePattern.cons_iff.mpr ⟨first, .inr (.inr (.inr ⟨_, rfl, pattern⟩))⟩
    · intro whole
      rcases (IsTypePattern.cons_iff.mp whole).2 with
        ⟨n, same⟩ | pattern | ⟨_, same, pattern⟩ | ⟨_, same, pattern⟩
      · exact (not_brackets (by decide) n same).elim
      · exact (noDot pattern).elim
      · obtain rfl := (List.cons.inj same).2
        exact (noDot pattern).elim
      · obtain rfl := (List.cons.inj (List.cons.inj same).2).2
        exact pattern
  | case2 d rest apart ih =>
    rw [isSegmentsEnd.eq_2 _ _ apart, go ih]
    constructor
    · intro pattern
      exact IsTypePattern.cons_iff.mpr ⟨first, .inr (.inr (.inl ⟨_, rfl, pattern⟩))⟩
    · intro whole
      rcases (IsTypePattern.cons_iff.mp whole).2 with
        ⟨n, same⟩ | pattern | ⟨_, same, pattern⟩ | ⟨more, same, pattern⟩
      · exact (not_brackets (by decide) n same).elim
      · exact (noDot pattern).elim
      · obtain rfl := (List.cons.inj same).2
        exact pattern
      · obtain ⟨rfl, rfl⟩ := List.cons.inj (List.cons.inj same).2
        cases rest with
        | nil => exact (pattern.ne_nil rfl).elim
        | cons e rest => exact (apart _ _ rfl rfl).elim
  | case3 d rest two one named ih =>
    have noBracket : d ≠ '[' := by
      intro same
      exact Bool.false_ne_true (not_isSegmentChar_bracket.symm.trans (same ▸ named))
    rw [isSegmentsEnd.eq_3 _ _ two one, if_pos named]
    apply (ih named).trans
    constructor
    · intro pattern
      exact IsTypePattern.cons_iff.mpr ⟨first, .inr (.inl pattern)⟩
    · intro whole
      rcases (IsTypePattern.cons_iff.mp whole).2 with
        ⟨n, same⟩ | pattern | ⟨_, same, pattern⟩ | ⟨_, same, pattern⟩
      · exact (not_brackets noBracket n same).elim
      · exact pattern
      · obtain ⟨rfl, -⟩ := List.cons.inj same
        exact (Bool.false_ne_true (not_isSegmentChar_dot.symm.trans named)).elim
      · obtain ⟨rfl, -⟩ := List.cons.inj same
        exact (Bool.false_ne_true (not_isSegmentChar_dot.symm.trans named)).elim
  | case4 d rest two one unnamed =>
    rw [isSegmentsEnd.eq_3 _ _ two one, if_neg unnamed, isBrackets_iff]
    constructor
    · intro ends
      exact IsTypePattern.cons_iff.mpr ⟨first, .inl ends⟩
    · intro whole
      rcases (IsTypePattern.cons_iff.mp whole).2 with
        ends | pattern | ⟨more, same, pattern⟩ | ⟨more, same, pattern⟩
      · exact ends
      · exact (unnamed (IsTypePattern.cons_iff.mp pattern).1).elim
      · obtain ⟨rfl, rfl⟩ := List.cons.inj same
        cases rest with
        | nil => exact (pattern.ne_nil rfl).elim
        | cons e rest => exact (one _ _ rfl rfl).elim
      · obtain ⟨rfl, rfl⟩ := List.cons.inj same
        exact (one _ _ rfl rfl).elim
  | case5 =>
    constructor
    · intro _
      exact IsTypePattern.cons_iff.mpr ⟨first, .inl ⟨0, rfl⟩⟩
    · intro _
      rfl

/-- The texts that are read as patterns are the patterns of types. -/
theorem isPattern_iff {text : List Char} : isPattern text = true ↔ IsTypePattern text := by
  cases text with
  | nil => simpa [isPattern] using fun pattern : IsTypePattern [] => pattern.ne_nil rfl
  | cons c rest =>
    rw [isPattern, Bool.and_eq_true]
    constructor
    · rintro ⟨first, ends⟩
      exact (isSegmentsEnd_iff first).mp ends
    · intro pattern
      have first := (IsTypePattern.cons_iff.mp pattern).1
      exact ⟨first, (isSegmentsEnd_iff first).mpr pattern⟩

end Glob

/-- A pattern has no brackets if all its characters are of segments or dots. -/
theorem segments_iff {text : List Char} : Segments text ↔
    Glob.isPattern text = true ∧ ∀ c ∈ text, Glob.isSegmentChar c = true ∨ c = '.' := by
  rw [Glob.isPattern_iff]
  constructor
  · intro segments
    exact ⟨⟨text, 0, segments, by simp⟩, segments.chars⟩
  · rintro ⟨⟨segments, n, isSegments, split⟩, inside⟩
    subst split
    cases n with
    | zero => simpa using isSegments
    | succ n => exact absurd (inside '[' (by simp)) (by decide)

/-! ## White space around a text -/

theorem trimWhite_blank_append {before : List Char} (blank : IsBlank before) (cs : List Char) :
    trimWhite (before ++ cs) = trimWhite cs := by
  rw [trimWhite, trimWhite, List.dropWhile_append_of_pos blank]

theorem trimWhite_append_blank {after : List Char} (blank : IsBlank after) (cs : List Char) :
    trimWhite (cs ++ after) = trimWhite cs := by
  have backwards : ∀ c ∈ after.reverse, CharClass.isWhite c = true := by
    simpa [IsBlank] using blank
  rw [trimWhite, trimWhite, List.dropWhile_append]
  split
  · next none =>
    rw [List.isEmpty_iff.mp none, List.dropWhile_eq_nil_iff.2 blank]
  · rw [List.reverse_append, List.dropWhile_append_of_pos backwards]

namespace Signature

/-! ## Arguments -/

/-- The text of an argument: two dots, a star, or the pattern of a type. -/
def IsPiece (text : List Char) : Prop := text = ['.', '.'] ∨ text = ['*'] ∨ IsTypePattern text

theorem isArgument_iff {text : List Char} : IsArgument text ↔ IsPiece text := by
  have star : IsTypePattern ['*'] := Glob.isPattern_iff.mp (by decide)
  rw [IsArgument, IsPiece, Glob.isPattern_iff]
  constructor
  · exact Or.imp_right .inr
  · intro piece
    rcases piece with dots | rfl | pattern
    · exact .inl dots
    · exact .inr star
    · exact .inr pattern

/-- A text with white space around it. -/
def Padded (padded text : List Char) : Prop :=
  ∃ before after, IsBlank before ∧ IsBlank after ∧ padded = before ++ (text ++ after)

/-- What stands in the parentheses: nothing but white space for no arguments, or one piece
for each argument, with commas between them and white space around them. -/
def IsArgumentText (inside : List Char) (args : List (List Char)) : Prop :=
  IsBlank inside ∧ args = [] ∨
    ∃ pieces, pieces ≠ [] ∧ inside = [','].intercalate pieces ∧ List.Forall₂ Padded pieces args ∧
      ∀ arg ∈ args, IsPiece arg

theorem arguments_iff {inside : List Char} {args : List (List Char)} : Arguments inside args ↔
    ∃ pieces, pieces ≠ [] ∧ inside = [','].intercalate pieces ∧ List.Forall₂ Padded pieces args ∧
      ∀ arg ∈ args, IsPiece arg := by
  constructor
  · intro listed
    induction listed with
    | @last before arg after blankBefore isArgument blankAfter =>
      refine ⟨[before ++ (arg ++ after)], by simp, by simp, ?_, ?_⟩
      · exact .cons ⟨before, after, blankBefore, blankAfter, rfl⟩ .nil
      · simpa using isArgument_iff.mp isArgument
    | @more before arg after rest args blankBefore isArgument blankAfter _ ih =>
      obtain ⟨pieces, present, rfl, padded, arePieces⟩ := ih
      refine ⟨(before ++ (arg ++ after)) :: pieces, by simp, ?_, ?_, ?_⟩
      · simp [List.intercalate_cons_of_ne_nil present]
      · exact .cons ⟨before, after, blankBefore, blankAfter, rfl⟩ padded
      · exact List.forall_mem_cons.mpr ⟨isArgument_iff.mp isArgument, arePieces⟩
  · rintro ⟨pieces, present, split, padded, arePieces⟩
    induction padded generalizing inside with
    | nil => exact (present rfl).elim
    | @cons piece arg pieces args first rest ih =>
      obtain ⟨before, after, blankBefore, blankAfter, rfl⟩ := first
      obtain ⟨isPiece, arePieces⟩ := List.forall_mem_cons.mp arePieces
      have isArgument := isArgument_iff.mpr isPiece
      cases pieces with
      | nil =>
        cases rest
        simp only [List.intercalate_singleton] at split
        exact split ▸ .last blankBefore isArgument blankAfter
      | cons piece pieces =>
        have more := ih (List.cons_ne_nil _ _) rfl arePieces
        have whole := Arguments.more blankBefore isArgument blankAfter more
        simpa [split, List.intercalate_cons_cons] using whole

theorem argumentList_iff {inside : List Char} {args : List (List Char)} :
    ArgumentList inside args ↔ IsArgumentText inside args :=
  or_congr_right arguments_iff

/-! ## Descriptors -/

/-- The descriptors that are put together from some texts. -/
inductive IsDescriptor : List Char → Texts → Prop where
  | mk {before owner gap name between inside after : List Char} {args : List (List Char)}
      (blankBefore : IsBlank before) (isOwner : Segments owner) (isGap : gap ≠ [] ∧ IsBlank gap)
      (isName : name = "<constructor>".toList ∨ IsRun name) (blankBetween : IsBlank between)
      (noParens : ∀ c ∈ inside, c ≠ '(' ∧ c ≠ ')') (isArgs : IsArgumentText inside args)
      (blankAfter : IsBlank after) :
      IsDescriptor
        (before ++ (owner ++ (gap ++ (name ++ (between ++ '(' :: inside ++ ')' :: after)))))
        { owner, name, args }

theorem IsDescriptor.isName {descriptor : List Char} {texts : Texts}
    (isDescriptor : IsDescriptor descriptor texts) :
    texts.name = constructorWord ∨ IsRun texts.name := by
  cases isDescriptor with
  | mk _ _ _ isName => exact isName

theorem spell_iff {descriptor : List Char} {texts : Texts} :
    texts.Spell descriptor ↔ IsDescriptor descriptor texts := by
  constructor
  · rintro ⟨isPattern, inside, composed, list⟩
    obtain ⟨owner, name, args⟩ := texts
    cases composed with
    | mk blankBefore isOwner isGap isName blankBetween noParens blankAfter =>
      refine .mk blankBefore (segments_iff.mpr ⟨isPattern, ?_⟩) isGap ?_ blankBetween noParens
        (argumentList_iff.mp list) blankAfter
      · simpa using isOwner.2
      · exact isName.imp_right isRun_iff.mpr
  · intro isDescriptor
    cases isDescriptor with
    | @mk _ owner _ _ _ inside _ _ blankBefore isOwner isGap isName blankBetween noParens isArgs
        blankAfter =>
      obtain ⟨isPattern, ownerChars⟩ := segments_iff.mp isOwner
      refine ⟨isPattern, inside, ?_, argumentList_iff.mpr isArgs⟩
      apply Composed.mk blankBefore ⟨isOwner.ne_nil, _⟩ isGap (isName.imp_right isRun_iff.mp)
        blankBetween noParens blankAfter
      simpa using ownerChars

/-! ## Reading -/

/-- The signature of some texts. -/
def Texts.signature (texts : Texts) (descriptor : String) : Signature where
  descriptor := String.ofList (trimWhite descriptor.toList)
  owner := Glob.tokens texts.owner
  name := NamePattern.ofText texts.name
  args := texts.args.map ArgPattern.ofText

theorem readGlob_of_isTypePattern [compiler : GlobCompiler] {text : List Char}
    (pattern : IsTypePattern text)
    (taken : compiler.Takes (Glob.tokens text)) : readGlob text = .ok (Glob.tokens text) :=
  readGlob_eq_ok_iff.mpr ⟨Glob.isPattern_iff.mpr pattern, rfl, taken⟩

theorem readArg_of_isPiece [compiler : GlobCompiler] {text : List Char} (isPiece : IsPiece text)
    (taken : ∀ glob ∈ ArgPattern.glob? (ArgPattern.ofText text), compiler.Takes glob) :
    readArg text = .ok (ArgPattern.ofText text) := by
  rw [readArg.eq_def]
  rcases isPiece with rfl | rfl | pattern
  · rfl
  · rfl
  · split
    · exact (pattern.ne_nil rfl).elim
    · rfl
    · rfl
    · next dots star =>
      rw [ArgPattern.ofText.eq_3 text dots star] at taken ⊢
      rw [readGlob_of_isTypePattern pattern (taken _ rfl)]
      rfl

theorem mapM_readArg_of_isPiece [compiler : GlobCompiler] {args : List (List Char)}
    (arePieces : ∀ arg ∈ args, IsPiece arg)
    (taken : ∀ glob ∈ (args.map ArgPattern.ofText).filterMap ArgPattern.glob?,
      compiler.Takes glob) :
    args.mapM readArg = .ok (args.map ArgPattern.ofText) := by
  induction args with
  | nil => rfl
  | cons arg args ih =>
    obtain ⟨isPiece, arePieces⟩ := List.forall_mem_cons.mp arePieces
    have first : ∀ glob ∈ ArgPattern.glob? (ArgPattern.ofText arg), compiler.Takes glob :=
      fun glob same => taken glob (List.mem_filterMap.mpr ⟨_, List.mem_cons_self, same⟩)
    have rest : ∀ glob ∈ (args.map ArgPattern.ofText).filterMap ArgPattern.glob?,
        compiler.Takes glob := by
      intro glob mem
      obtain ⟨pattern, inside, same⟩ := List.mem_filterMap.mp mem
      exact taken glob (List.mem_filterMap.mpr ⟨pattern, List.mem_cons_of_mem _ inside, same⟩)
    rw [List.mapM_cons, readArg_of_isPiece isPiece first, ih arePieces rest]
    rfl

theorem betweenCommas_ne_nil (cs : List Char) : betweenCommas cs ≠ [] := by
  cases cs with
  | nil => simp [betweenCommas]
  | cons c cs =>
    rw [betweenCommas]
    split
    · simp
    · split <;> simp

/-- A character that is no comma belongs to the first of the parts. -/
theorem betweenCommas_cons {c : Char} (other : c ≠ ',') (cs : List Char) :
    ∃ first more,
      betweenCommas cs = first :: more ∧ betweenCommas (c :: cs) = (c :: first) :: more := by
  obtain ⟨first, more, parts⟩ := List.exists_cons_of_ne_nil (betweenCommas_ne_nil cs)
  exact ⟨first, more, parts, by simp [betweenCommas, other, parts]⟩

/-- White space in front goes to the first of the parts. -/
theorem betweenCommas_blank_append {before : List Char} (blank : IsBlank before) (cs : List Char) :
    (betweenCommas (before ++ cs)).map trimWhite = (betweenCommas cs).map trimWhite := by
  induction before with
  | nil => rfl
  | cons c before ih =>
    obtain ⟨white, blank'⟩ := isBlank_cons.mp blank
    obtain ⟨first, more, parts, whole⟩ :=
      betweenCommas_cons (IsBlank.no_comma blank c List.mem_cons_self) (before ++ cs)
    have single : IsBlank [c] := by simp [white]
    rw [← ih blank', List.cons_append, whole, parts, List.map_cons, List.map_cons]
    congr 1
    exact trimWhite_blank_append single first

/-- White space at the end goes to the last of the parts. -/
theorem betweenCommas_append_blank {after : List Char} (blank : IsBlank after) (cs : List Char) :
    List.Forall₂ (fun padded part => ∃ w, IsBlank w ∧ padded = part ++ w)
      (betweenCommas (cs ++ after)) (betweenCommas cs) := by
  induction cs with
  | nil =>
    rw [List.nil_append, betweenCommas_of_no_comma (IsBlank.no_comma blank)]
    exact .cons ⟨after, blank, rfl⟩ .nil
  | cons c cs ih =>
    by_cases comma : c = ','
    · simp only [List.cons_append, betweenCommas, comma, beq_self_eq_true, if_true]
      exact .cons ⟨[], isBlank_nil, rfl⟩ ih
    · obtain ⟨first, more, parts, whole⟩ := betweenCommas_cons comma cs
      obtain ⟨first', more', parts', whole'⟩ := betweenCommas_cons comma (cs ++ after)
      rw [parts, parts'] at ih
      rw [List.cons_append, whole, whole']
      obtain ⟨⟨w, blank, rfl⟩, rest⟩ := List.forall₂_cons.mp ih
      exact .cons ⟨w, blank, rfl⟩ rest

/-- Trimming a list of arguments does not change what they are when trimmed. -/
theorem betweenCommas_trimWhite (cs : List Char) :
    (betweenCommas (trimWhite cs)).map trimWhite = (betweenCommas cs).map trimWhite := by
  obtain ⟨before, after, blankBefore, blankAfter, split⟩ := exists_trimWhite cs
  have padded := betweenCommas_append_blank blankAfter (trimWhite cs)
  conv_rhs => rw [split, betweenCommas_blank_append blankBefore]
  symm
  rw [← List.forall₂_eq_eq_eq, List.forall₂_map_left_iff, List.forall₂_map_right_iff]
  apply padded.imp
  intro _ part ⟨w, blank, same⟩
  rw [same, trimWhite_append_blank blank]

theorem readArgs_of_argumentList [compiler : GlobCompiler] {inside : List Char}
    {args : List (List Char)} (list : ArgumentList inside args)
    (taken : ∀ glob ∈ (args.map ArgPattern.ofText).filterMap ArgPattern.glob?,
      compiler.Takes glob) :
    readArgs inside = .ok (args.map ArgPattern.ofText) := by
  rw [readArgs.eq_def]
  rcases list with ⟨blank, rfl⟩ | listed
  · rw [trimWhite_eq_nil_iff.mpr blank]
    rfl
  · split
    · next nil => exact (listed.not_isBlank (trimWhite_eq_nil_iff.mp nil)).elim
    · obtain ⟨_, -, -, -, arePieces⟩ := arguments_iff.mp listed
      have trimmed : (betweenCommas (trimWhite inside)).mapM (fun arg => readArg (trimWhite arg)) =
          ((betweenCommas (trimWhite inside)).map trimWhite).mapM readArg := by
        rw [List.mapM_map]
        rfl
      rw [trimmed, betweenCommas_trimWhite, ← listed.eq_betweenCommas]
      exact mapM_readArg_of_isPiece arePieces taken

/-- A descriptor whose patterns are all taken is read. -/
theorem parse_of_isDescriptor [compiler : GlobCompiler] {descriptor : String} {texts : Texts}
    (isDescriptor : IsDescriptor descriptor.toList texts)
    (taken : ∀ glob ∈ (texts.signature descriptor).globs, compiler.Takes glob) :
    parse descriptor = .ok (texts.signature descriptor) := by
  obtain ⟨isPattern, inside, composed, list⟩ := spell_iff.mpr isDescriptor
  have owner := readGlob_of_isTypePattern (Glob.isPattern_iff.mp isPattern)
    (taken _ (List.mem_append_left _ List.mem_cons_self))
  have args := readArgs_of_argumentList list
    fun glob mem => taken glob (List.mem_append_right _ mem)
  simp only [parse, split?_eq_some_iff.mpr composed, owner, args]
  rcases isDescriptor.isName with word | run
  · simp only [word, beq_self_eq_true, if_true, Texts.signature, NamePattern.ofText]
    rfl
  · have noWord : texts.name ≠ constructorWord := by
      intro word
      exact absurd ((isRun_iff.mp run).2 '<' (word ▸ by decide)) (by decide)
    have takenName : compiler.Takes (Glob.tokens texts.name) := by
      refine taken _ (List.mem_append_left _ (List.mem_cons_of_mem _ ?_))
      rw [Texts.signature, NamePattern.ofText, if_neg noWord]
      exact List.mem_singleton_self _
    have named := readGlob_of_isTypePattern ⟨_, 0, .one run, (List.append_nil _).symm⟩ takenName
    simp only [beq_eq_false_iff_ne.mpr noWord, Bool.false_eq_true, if_false, named,
      Texts.signature, NamePattern.ofText, noWord]
    rfl

end Signature

/-! ## The pieces of a signature -/

def GlobToken.text : GlobToken → List Char
  | char c => [c]
  | anyChars => ['*']
  | anySegments => ['.', '.']

/-- The text of a pattern. -/
def Glob.text (glob : Glob) : List Char := glob.flatMap GlobToken.text

@[simp] theorem Glob.text_tokens (text : List Char) : Glob.text (tokens text) = text := by
  induction text using tokens.induct with
  | case1 => rfl
  | case2 rest ih => simpa [tokens, Glob.text, GlobToken.text] using ih
  | case3 rest ih => simpa [tokens, Glob.text, GlobToken.text] using ih
  | case4 c rest noDots noStar ih =>
    rw [tokens.eq_4 c rest noDots noStar]
    simpa [Glob.text, GlobToken.text] using ih

theorem Glob.tokens_stars (n : Nat) :
    tokens (List.replicate n '*') = List.replicate n .anyChars := by
  induction n with
  | zero => rfl
  | succ n ih => rw [List.replicate_succ, List.replicate_succ, tokens, ih]

namespace Signature

def NamePattern.text : NamePattern → List Char
  | .constructor => constructorWord
  | .name glob => Glob.text glob

def ArgPattern.text : ArgPattern → List Char
  | .anySequence => ['.', '.']
  | .any => ['*']
  | .type glob => Glob.text glob

/-- The texts of the patterns of a signature. -/
def texts (s : Signature) : Texts where
  owner := Glob.text s.owner
  name := NamePattern.text s.name
  args := s.args.map ArgPattern.text

theorem NamePattern.text_ofText (name : List Char) :
    NamePattern.text (NamePattern.ofText name) = name := by
  rw [NamePattern.ofText]
  split
  · next word => exact word.symm
  · exact Glob.text_tokens name

theorem ArgPattern.text_ofText (arg : List Char) : ArgPattern.text (ArgPattern.ofText arg) = arg := by
  rw [ArgPattern.ofText.eq_def]
  split
  · rfl
  · rfl
  · exact Glob.text_tokens arg

/-- A signature has the texts that it is made of. -/
theorem texts_signature (texts : Texts) (descriptor : String) :
    (texts.signature descriptor).texts = texts := by
  have args : (texts.args.map ArgPattern.ofText).map ArgPattern.text = texts.args := by
    simp [Function.comp_def, ArgPattern.text_ofText]
  simp [Signature.texts, Texts.signature, NamePattern.text_ofText, args]

/-- What is read is the signature of the pieces of a descriptor, and its patterns are taken. -/
theorem exists_of_parse [compiler : GlobCompiler] {descriptor : String} {s : Signature}
    (parsed : parse descriptor = .ok s) :
    ∃ pieces : Texts, IsDescriptor descriptor.toList pieces ∧ s = pieces.signature descriptor ∧
      ∀ glob ∈ s.globs, compiler.Takes glob := by
  obtain ⟨⟨pieces, spell, owner, name, args⟩, taken⟩ := spell_of_parse parsed
  have isDescriptor := spell_iff.mp spell
  have same : (pieces.signature descriptor).globs = s.globs := by
    rw [globs, globs, owner, name, args]
    rfl
  have read := parsed.symm.trans (parse_of_isDescriptor isDescriptor (same ▸ taken))
  exact ⟨pieces, isDescriptor, Except.ok.inj read, taken⟩

/-- What is read with some compiler is read with the one that refuses nothing. -/
theorem parse_unlimited [GlobCompiler] {descriptor : String} {s : Signature}
    (parsed : parse descriptor = .ok s) : @parse .unlimited descriptor = .ok s := by
  obtain ⟨pieces, isDescriptor, rfl, -⟩ := exists_of_parse parsed
  exact @parse_of_isDescriptor .unlimited _ _ isDescriptor fun _ _ => .inr rfl

/-- The texts that can be read are the descriptors whose patterns the compiler takes. The pieces
of a descriptor are determined, and what is read from it is the signature whose patterns are
these pieces, in order. -/
theorem parse_eq_ok_iff [compiler : GlobCompiler] {descriptor : String} {s : Signature} :
    parse descriptor = .ok s ↔ ∃ pieces : Texts, IsDescriptor descriptor.toList pieces ∧
      (∀ others : Texts, IsDescriptor descriptor.toList others → others = pieces) ∧
        s.texts = pieces ∧ s = pieces.signature descriptor ∧
          ∀ glob ∈ s.globs, compiler.Takes glob := by
  constructor
  · intro parsed
    obtain ⟨pieces, isDescriptor, rfl, taken⟩ := exists_of_parse parsed
    refine ⟨pieces, isDescriptor, ?_, texts_signature pieces descriptor, rfl, taken⟩
    intro others isDescriptor'
    exact (spell_iff.mpr isDescriptor').unique (spell_iff.mpr isDescriptor)
  · rintro ⟨pieces, isDescriptor, _, _, rfl, taken⟩
    exact parse_of_isDescriptor isDescriptor taken

/-- A descriptor with a declaring type that the compiler refuses is not read. -/
theorem parse_of_refused [compiler : GlobCompiler] {descriptor reason : String} {pieces : Texts}
    (isDescriptor : IsDescriptor descriptor.toList pieces)
    (wild : (Glob.tokens pieces.owner).wildcards ≠ [])
    (refused : compiler.refusal? (Glob.tokens pieces.owner) = some reason) :
    parse descriptor = .error ⟨descriptor, .refused reason⟩ := by
  obtain ⟨isPattern, inside, composed, -⟩ := spell_iff.mpr isDescriptor
  have owner : readGlob pieces.owner = .error (.refused reason) := by
    rw [readGlob, Glob.ofText?, if_pos isPattern]
    dsimp only
    rw [if_neg fun none => wild (List.isEmpty_iff.mp none), refused]
  simp only [parse, split?_eq_some_iff.mpr composed, owner]
  rfl

/-- A member `m` without arguments, of a type whose name is so many stars. -/
def manyStars (n : Nat) : String := String.ofList (List.replicate n '*' ++ " m()".toList)

theorem isDescriptor_manyStars (n : Nat) :
    IsDescriptor (manyStars (n + 1)).toList ⟨List.replicate (n + 1) '*', ['m'], []⟩ := by
  have stars : IsRun (List.replicate (n + 1) '*') :=
    ⟨List.cons_ne_nil _ _, fun c mem => .inr (.inr (List.eq_of_mem_replicate mem))⟩
  have name : IsRun ['m'] := isRun_cons.mpr ⟨by decide, .inl rfl⟩
  have blank : IsBlank [' '] := List.forall_mem_singleton.mpr (by decide)
  rw [manyStars, String.toList_ofList]
  exact @IsDescriptor.mk [] _ _ _ [] [] [] [] isBlank_nil (.one stars)
    ⟨List.cons_ne_nil _ _, blank⟩ (.inr name) isBlank_nil (List.forall_mem_nil _)
    (.inl ⟨isBlank_nil, rfl⟩) isBlank_nil

/-- A descriptor that has the form of one, and is refused for its size. -/
theorem parse_manyStars :
    IsDescriptor (manyStars 2000).toList ⟨List.replicate 2000 '*', ['m'], []⟩ ∧
      @parse .standard (manyStars 2000) = .error
        ⟨manyStars 2000, .refused "Compiled regex exceeds size limit of 10485760 bytes."⟩ := by
  have wildcards : Glob.wildcards (List.replicate 2000 .anyChars) =
      List.replicate 2000 .anyChars := List.filter_eq_self.mpr fun token mem =>
    List.eq_of_mem_replicate mem ▸ rfl
  refine ⟨isDescriptor_manyStars 1999, ?_⟩
  apply @parse_of_refused .standard _ _ _ (isDescriptor_manyStars 1999)
  · rw [Glob.tokens_stars, wildcards]
    exact List.cons_ne_nil _ _
  · rw [Glob.tokens_stars]
    exact if_pos (by rw [wildcards, List.length_replicate]; decide)

/-- White space may stand anywhere but inside of the pieces, and a name may be a star. -/
example : (@parse .unlimited " java..Files\t* ( ..,int[] )\n").isOk = true := by decide +kernel

end Signature

end JavaMend
