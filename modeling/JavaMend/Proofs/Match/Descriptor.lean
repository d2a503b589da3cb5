import Mathlib.Data.List.Basic
import Mathlib.Data.List.Forall2
import JavaMend.Match.Signature
import JavaMend.Tree.Library
import JavaMend.Proofs.Match.Names

/-!
# The form and the meaning of descriptors

A descriptor is put together from a pattern for the declaring type, a name and a list
of arguments in parentheses (`Signature.Composed`), and the list from arguments with
commas between them and white space around them (`Signature.Arguments`). A text is put together
so in one way only (`Signature.Texts.Spell.unique`), and if it can be read as a signature,
then it is put together so, and the signature is that of its parts (`Signature.spell_of_parse`).

Whether a descriptor stands for a member of the library can be said from its texts as well
(`Signature.Texts.Describes`): the name, the declaring type and its supertypes, and the
cuts of the parameters into pieces for the arguments. The signature that is read from a
descriptor accepts the members it stands for and no others
(`Signature.accepts_iff_describes`).
-/

namespace JavaMend

/-! ## White space -/

/-- White space and nothing else. -/
def IsBlank (cs : List Char) : Prop := ∀ c ∈ cs, CharClass.isWhite c = true

@[simp] theorem isBlank_nil : IsBlank [] := nofun

@[simp] theorem isBlank_cons {c : Char} {cs : List Char} :
    IsBlank (c :: cs) ↔ CharClass.isWhite c = true ∧ IsBlank cs := List.forall_mem_cons

@[simp] theorem isBlank_append {cs ds : List Char} : IsBlank (cs ++ ds) ↔ IsBlank cs ∧ IsBlank ds :=
  List.forall_mem_append

/-- Ranges of code points that do not meet. -/
theorem CodeRanges.not_has {ranges others : CodeRanges} {c : Char}
    (apart : (ranges.all fun p => others.all fun q => p.2 < q.1 || q.2 < p.1) = true)
    (here : ranges.has c = true) : others.has c = false := by
  by_contra there
  simp only [CodeRanges.has, List.any_eq_true, Bool.and_eq_true, decide_eq_true_eq, Prod.exists,
    Bool.not_eq_false] at here there
  obtain ⟨first, last, mem, least, most⟩ := here
  obtain ⟨first', last', mem', least', most'⟩ := there
  have away := List.all_eq_true.mp (List.all_eq_true.mp apart _ mem) _ mem'
  simp only [Bool.or_eq_true, decide_eq_true_eq] at away
  omega

/-- White space does not occur in segments. -/
theorem not_isSegmentChar_of_isWhite {c : Char} (white : CharClass.isWhite c = true) :
    Glob.isSegmentChar c = false := by
  by_cases ascii : c.toNat < 128
  · have all : ∀ n : Fin 128, CharClass.isWhite (Char.ofNat n) = true →
        Glob.isSegmentChar (Char.ofNat n) = false := by
      decide +kernel
    have here := all ⟨c.toNat, ascii⟩
    rw [Char.ofNat_toNat] at here
    exact here white
  · have apart : (whiteRanges.all fun p =>
        (alphabeticRanges ++ wordRanges).all fun q => p.2 < q.1 || q.2 < p.1) = true := by
      decide +kernel
    have beyond : whiteRanges.has c = true := by
      simp [CharClass.isWhite] at white
      rcases white with (h | h) | h
      · omega
      · subst h
        simp at ascii
      · exact h.2
    have absent := CodeRanges.not_has apart beyond
    simp only [CodeRanges.has, List.any_append, Bool.or_eq_false_iff] at absent
    have plain (d : Char) (h : d.toNat < 128) : c ≠ d := by
      rintro rfl
      exact ascii h
    have above (d : Char) (h : d.toNat < 128) : ¬ c.val ≤ d.val := fun le =>
      ascii (Nat.lt_of_le_of_lt le h)
    have outside (low high : Char) (h : high.toNat < 128) :
        (decide (c.val ≥ low.val) && decide (c.val ≤ high.val)) = false := by
      simp [above high h]
    have letters : c.isAlpha = false ∧ c.isDigit = false := by
      have upper : c.isUpper = false := decide_eq_false fun within => above 'Z' (by decide) within.2
      have lower : c.isLower = false := outside 'a' 'z' (by decide)
      have alpha : c.isAlpha = (c.isUpper || c.isLower) := rfl
      rw [alpha, upper, lower]
      exact ⟨rfl, outside '0' '9' (by decide)⟩
    simp [Glob.isSegmentChar, isNameChar, CharClass.isWord, CharClass.isAlphabetic, letters,
      CodeRanges.has, absent, plain _ (by decide : '_'.toNat < 128), plain _ (by decide : '$'.toNat < 128),
      plain _ (by decide : '*'.toNat < 128)]

/-! ## Fronts of texts -/

/-- The longest front of a text with characters of one class, and what follows it. -/
theorem span_eq_iff {p : Char → Bool} {cs front rest : List Char} :
    cs.takeWhile p = front ∧ cs.dropWhile p = rest ↔
      cs = front ++ rest ∧ (∀ c ∈ front, p c = true) ∧ ∀ c ∈ rest.head?, p c = false := by
  induction cs generalizing front with
  | nil =>
    simp only [List.takeWhile_nil, List.dropWhile_nil, List.nil_eq_append_iff]
    constructor
    · rintro ⟨rfl, rfl⟩
      simp
    · rintro ⟨⟨rfl, rfl⟩, -⟩
      simp
  | cons c cs ih =>
    cases here : p c with
    | false =>
      simp only [List.takeWhile_cons, List.dropWhile_cons, here, Bool.false_eq_true, if_false]
      constructor
      · rintro ⟨rfl, rfl⟩
        simp [here]
      · rintro ⟨split, inside, -⟩
        cases front with
        | nil => exact ⟨rfl, split⟩
        | cons d front =>
          obtain ⟨rfl, -⟩ := List.cons.inj split
          simp [here] at inside
    | true =>
      simp only [List.takeWhile_cons, List.dropWhile_cons, here, if_true]
      cases front with
      | nil =>
        simp only [reduceCtorEq, false_and, List.nil_append, false_iff]
        rintro ⟨rfl, -, apart⟩
        simp [here] at apart
      | cons d front =>
        simp only [List.cons.injEq, List.cons_append, List.forall_mem_cons, and_assoc, ih]
        constructor
        · rintro ⟨rfl, rfl, inside, apart⟩
          exact ⟨rfl, rfl, here, inside, apart⟩
        · rintro ⟨rfl, rfl, -, inside, apart⟩
          exact ⟨rfl, rfl, inside, apart⟩

theorem exists_span (p : Char → Bool) (cs : List Char) : ∃ front rest, cs.takeWhile p = front ∧
    cs.dropWhile p = rest ∧ cs = front ++ rest ∧ (∀ c ∈ front, p c = true) ∧
      ∀ c ∈ rest.head?, p c = false :=
  ⟨_, _, rfl, rfl, span_eq_iff.mp ⟨rfl, rfl⟩⟩

theorem forall_head?_append {q : Char → Prop} {front : List Char} (rest : List Char) (some : front ≠ [])
    (all : ∀ c ∈ front, q c) : ∀ c ∈ (front ++ rest).head?, q c := by
  cases front with
  | nil => exact (some rfl).elim
  | cons c front => simpa using all c List.mem_cons_self

/-! ## The parts -/

namespace Signature

/-- The word for constructors starts with no character of a segment. -/
theorem constructorWord_eq : constructorWord = '<' :: "constructor>".toList := by decide

theorem splitName?_eq_some_iff {cs name rest : List Char} : splitName? cs = some (name, rest) ↔
    cs = name ++ rest ∧ (name = constructorWord ∨ name ≠ [] ∧
      (∀ c ∈ name, Glob.isSegmentChar c = true) ∧ ∀ c ∈ rest.head?, Glob.isSegmentChar c = false) := by
  have outside : Glob.isSegmentChar '<' = false := by decide
  rw [splitName?]
  by_cases word : constructorWord.isPrefixOf cs = true
  · obtain ⟨more, rfl⟩ := List.isPrefixOf_iff_prefix.mp word
    simp only [word, if_true, List.drop_left, Option.some.injEq, Prod.mk.injEq]
    constructor
    · rintro ⟨rfl, rfl⟩
      exact ⟨rfl, .inl rfl⟩
    · rintro ⟨split, rfl | ⟨some, inside, -⟩⟩
      · exact ⟨rfl, List.append_cancel_left split⟩
      · cases name with
        | nil => exact (some rfl).elim
        | cons c name =>
          rw [constructorWord_eq] at split
          obtain ⟨rfl, -⟩ := List.cons.inj split
          simp [outside] at inside
  · simp only [word, Bool.false_eq_true, if_false]
    have fresh : ∀ more, cs ≠ constructorWord ++ more := by
      rintro more rfl
      simp at word
    cases taken : cs.takeWhile Glob.isSegmentChar with
    | nil =>
      simp only [reduceCtorEq, false_iff]
      rintro ⟨split, rfl | ⟨some, inside, apart⟩⟩
      · exact fresh _ split
      · rw [(span_eq_iff.mpr ⟨split, inside, apart⟩).1] at taken
        exact some taken
    | cons c front =>
      simp only [Option.some.injEq, Prod.mk.injEq]
      constructor
      · rintro ⟨rfl, rfl⟩
        obtain ⟨split, inside, apart⟩ := span_eq_iff.mp ⟨taken, rfl⟩
        exact ⟨split, .inr ⟨by simp, inside, apart⟩⟩
      · rintro ⟨split, rfl | ⟨-, inside, apart⟩⟩
        · exact (fresh _ split).elim
        · obtain ⟨same, left⟩ := span_eq_iff.mpr ⟨split, inside, apart⟩
          exact ⟨taken.symm.trans same, left⟩

theorem splitArgs?_eq_some_iff {cs args : List Char} : splitArgs? cs = some args ↔
    ∃ between after, IsBlank between ∧ IsBlank after ∧ (∀ c ∈ args, c ≠ '(' ∧ c ≠ ')') ∧
      cs = between ++ '(' :: args ++ ')' :: after := by
  have isPlain : ∀ c : Char, (c != '(' && c != ')') = true ↔ c ≠ '(' ∧ c ≠ ')' := by simp
  constructor
  · intro found
    obtain ⟨between, text, -, opened, rfl, blank, -⟩ := exists_span CharClass.isWhite cs
    simp only [splitArgs?, opened] at found
    split at found
    · next rest =>
      obtain ⟨args', more, taken, closed, rfl, inside, -⟩ :=
        exists_span (fun c => c != '(' && c != ')') rest
      simp only [taken, closed] at found
      split at found
      · next after =>
        split at found
        · next trailing =>
          cases found
          exact ⟨between, after, blank, List.all_eq_true.mp trailing,
            fun c mem => (isPlain c).mp (inside c mem), by simp⟩
        · cases found
      · cases found
    · cases found
  · rintro ⟨between, after, blank, trailing, inside, rfl⟩
    have opened : (between ++ '(' :: args ++ ')' :: after).dropWhile CharClass.isWhite =
        '(' :: (args ++ ')' :: after) :=
      (span_eq_iff.mpr ⟨by simp, blank, by simp [show CharClass.isWhite '(' = false by decide]⟩).2
    have closed := span_eq_iff.mpr ⟨rfl, fun c mem => (isPlain c).mpr (inside c mem),
      (by simp : ∀ c ∈ (')' :: after).head?, (c != '(' && c != ')') = false)⟩
    simp only [splitArgs?, opened, closed, List.all_eq_true.mpr trailing, if_true]

/-- The texts that are put together from parts: the declaring type and the name with
white space between them, and what stands in the parentheses. -/
inductive Composed : List Char → Parts → Prop where
  | mk {before owner gap name between args after : List Char} (blankBefore : IsBlank before)
      (isOwner : owner ≠ [] ∧ ∀ c ∈ owner, (Glob.isSegmentChar c || c == '.') = true)
      (isGap : gap ≠ [] ∧ IsBlank gap)
      (isName : name = constructorWord ∨ name ≠ [] ∧ ∀ c ∈ name, Glob.isSegmentChar c = true)
      (blankBetween : IsBlank between) (noParens : ∀ c ∈ args, c ≠ '(' ∧ c ≠ ')')
      (blankAfter : IsBlank after) :
      Composed (before ++ (owner ++ (gap ++ (name ++ (between ++ '(' :: args ++ ')' :: after)))))
        { owner, name, args }

theorem split?_eq_some_iff {cs : List Char} {parts : Parts} :
    split? cs = some parts ↔ Composed cs parts := by
  constructor
  · intro found
    obtain ⟨before, text, -, dropped, rfl, blankBefore, -⟩ := exists_span CharClass.isWhite cs
    obtain ⟨owner, rest, taken, left, rfl, ownerChars, -⟩ :=
      exists_span (fun c => Glob.isSegmentChar c || c == '.') text
    obtain ⟨gap, named, -, skipped, rfl, blankGap, afterGap⟩ := exists_span CharClass.isWhite rest
    simp only [split?, dropped, taken, left, skipped] at found
    obtain ⟨⟨name, more⟩, isName, found⟩ := Option.bind_eq_some_iff.mp found
    split at found
    · cases found
    · next present =>
      obtain ⟨args, isArgs, found⟩ := Option.bind_eq_some_iff.mp found
      cases found
      obtain ⟨rfl, named⟩ := splitName?_eq_some_iff.mp isName
      obtain ⟨between, after, blankBetween, blankAfter, noParens, rfl⟩ := splitArgs?_eq_some_iff.mp isArgs
      have someGap : gap ≠ [] := by
        rintro rfl
        cases name with
        | nil => simp [constructorWord_eq] at named
        | cons c name => simp [afterGap c rfl] at present
      have someOwner : owner ≠ [] := by
        rintro rfl
        simp at present
      exact .mk blankBefore ⟨someOwner, ownerChars⟩ ⟨someGap, blankGap⟩
        (named.imp id fun inside => ⟨inside.1, inside.2.1⟩) blankBetween noParens blankAfter
  · rintro ⟨blankBefore, ⟨someOwner, ownerChars⟩, ⟨someGap, blankGap⟩, isName, blankBetween, noParens,
      blankAfter⟩
    rename_i before owner gap name between args after
    have segment : ∀ c, Glob.isSegmentChar c = true → CharClass.isWhite c = false := by
      intro c segment
      by_contra white
      simp [not_isSegmentChar_of_isWhite (by simpa using white)] at segment
    have ownerApart : ∀ c ∈ owner, CharClass.isWhite c = false := by
      intro c mem
      rcases Bool.or_eq_true_iff.mp (ownerChars c mem) with named | dot
      · exact segment c named
      · rw [eq_of_beq dot]
        decide
    have gapApart : ∀ c ∈ gap, (Glob.isSegmentChar c || c == '.') = false := by
      intro c mem
      have white := blankGap c mem
      rw [not_isSegmentChar_of_isWhite white, Bool.false_or, beq_eq_false_iff_ne]
      rintro rfl
      simp [show CharClass.isWhite '.' = false by decide] at white
    have nameApart : name ≠ [] ∧ ∀ c ∈ (name ++ (between ++ '(' :: args ++ ')' :: after)).head?,
        CharClass.isWhite c = false := by
      rcases isName with rfl | ⟨some, inside⟩
      · exact ⟨by simp [constructorWord_eq], by simp [constructorWord_eq]; decide⟩
      · exact ⟨some, forall_head?_append _ some fun c mem => segment c (inside c mem)⟩
    have argsApart : ∀ c ∈ (between ++ '(' :: args ++ ')' :: after).head?, Glob.isSegmentChar c = false := by
      cases between with
      | nil => simp; decide
      | cons c between => simpa using not_isSegmentChar_of_isWhite (isBlank_cons.mp blankBetween).1
    have dropped := span_eq_iff.mpr ⟨rfl, blankBefore, forall_head?_append
      (gap ++ (name ++ (between ++ '(' :: args ++ ')' :: after))) someOwner ownerApart⟩
    have owned := span_eq_iff.mpr ⟨rfl, ownerChars, forall_head?_append
      (name ++ (between ++ '(' :: args ++ ')' :: after)) someGap gapApart⟩
    have skipped := span_eq_iff.mpr ⟨rfl, blankGap, nameApart.2⟩
    have named := splitName?_eq_some_iff.mpr
      ⟨rfl, isName.imp id fun inside => ⟨inside.1, inside.2, argsApart⟩⟩
    have opened := splitArgs?_eq_some_iff.mpr
      ⟨between, after, blankBetween, blankAfter, noParens, rfl⟩
    cases gap with
    | nil => exact (someGap rfl).elim
    | cons g gap =>
      simp only [split?, dropped, owned, skipped, named, Option.bind_eq_bind, Option.bind_some, opened]
      simp [someOwner, (isBlank_cons.mp blankGap).1]

/-! ## The arguments -/

/-- The text of one argument. -/
def IsArgument (arg : List Char) : Prop := arg = ['.', '.'] ∨ Glob.isPattern arg = true

/-- Arguments with commas between them, and white space around each of them. -/
inductive Arguments : List Char → List (List Char) → Prop where
  | last {before arg after : List Char} (blankBefore : IsBlank before) (isArgument : IsArgument arg)
      (blankAfter : IsBlank after) : Arguments (before ++ (arg ++ after)) [arg]
  | more {before arg after rest : List Char} {args : List (List Char)} (blankBefore : IsBlank before)
      (isArgument : IsArgument arg) (blankAfter : IsBlank after) (more : Arguments rest args) :
      Arguments (before ++ (arg ++ (after ++ ',' :: rest))) (arg :: args)

/-- What may stand in the parentheses: arguments, or white space for none. -/
def ArgumentList (inside : List Char) (args : List (List Char)) : Prop :=
  IsBlank inside ∧ args = [] ∨ Arguments inside args

end Signature

/-! ### Trimming -/

theorem exists_trimWhite (cs : List Char) : ∃ before after, IsBlank before ∧ IsBlank after ∧
    cs = before ++ (trimWhite cs ++ after) := by
  obtain ⟨before, rest, -, dropped, rfl, blankBefore, -⟩ := exists_span CharClass.isWhite cs
  obtain ⟨after, text, -, trimmed, backwards, blankAfter, -⟩ := exists_span CharClass.isWhite rest.reverse
  have forwards : rest = text.reverse ++ after.reverse := by
    rw [← List.reverse_append, ← backwards, List.reverse_reverse]
  refine ⟨before, after.reverse, blankBefore, by simpa [IsBlank] using blankAfter, ?_⟩
  rw [trimWhite, dropped, trimmed, ← forwards]

/-- Trimming takes white space away from both ends. -/
theorem trimWhite_eq {before text after : List Char} (blankBefore : IsBlank before)
    (blankAfter : IsBlank after) (apart : ∀ c ∈ text, CharClass.isWhite c = false) :
    trimWhite (before ++ (text ++ after)) = text := by
  cases text with
  | nil =>
    have blank : IsBlank (before ++ ([] ++ after)) := by simp [blankBefore, blankAfter]
    rw [trimWhite, (span_eq_iff.mpr ⟨(List.append_nil _).symm, blank, by simp⟩).2]
    rfl
  | cons c text =>
    have left := (span_eq_iff.mpr ⟨rfl, blankBefore, forall_head?_append after (by simp) apart⟩).2
    have blank : IsBlank after.reverse := by simpa [IsBlank] using blankAfter
    have right := (span_eq_iff.mpr ⟨List.reverse_append, blank, fun d mem =>
      apart d (List.mem_reverse.mp (List.mem_of_mem_head? mem))⟩).2
    rw [trimWhite, left, right, List.reverse_reverse]

theorem trimWhite_eq_nil_iff {cs : List Char} : trimWhite cs = [] ↔ IsBlank cs := by
  constructor
  · intro nil
    obtain ⟨before, after, blankBefore, blankAfter, split⟩ := exists_trimWhite cs
    rw [split, nil]
    simp [blankBefore, blankAfter]
  · intro blank
    simpa using trimWhite_eq blank isBlank_nil (nofun : ∀ c ∈ [], CharClass.isWhite c = false)

/-! ### The characters of a pattern -/

namespace Glob

theorem mem_of_isBrackets {text : List Char} (brackets : isBrackets text = true) :
    ∀ c ∈ text, c = '[' ∨ c = ']' := by
  induction text using isBrackets.induct with
  | case1 => nofun
  | case2 rest ih => simpa using ih brackets
  | case3 text none some => simp [isBrackets] at brackets

theorem mem_of_isSegmentsEnd {text : List Char} (ends : isSegmentsEnd text = true) :
    ∀ c ∈ text, isSegmentChar c = true ∨ c = '.' ∨ c = '[' ∨ c = ']' := by
  induction text using isSegmentsEnd.induct with
  | case1 c rest ih =>
    simp only [isSegmentsEnd, Bool.and_eq_true] at ends
    simpa [ends.1] using ih ends.2
  | case2 c rest apart ih =>
    rw [isSegmentsEnd.eq_2 _ _ apart, Bool.and_eq_true] at ends
    simpa [ends.1] using ih ends.2
  | case3 c rest two one named ih =>
    rw [isSegmentsEnd.eq_3 _ _ two one, if_pos named] at ends
    simpa [named] using ih ends
  | case4 c rest two one unnamed =>
    rw [isSegmentsEnd.eq_3 _ _ two one, if_neg unnamed] at ends
    exact fun d mem => .inr (.inr (mem_of_isBrackets ends d mem))
  | case5 => nofun

theorem mem_of_isPattern {text : List Char} (pattern : isPattern text = true) :
    ∀ c ∈ text, isSegmentChar c = true ∨ c = '.' ∨ c = '[' ∨ c = ']' := by
  cases text with
  | nil => nofun
  | cons c rest =>
    simp only [isPattern, Bool.and_eq_true] at pattern
    simpa [pattern.1] using mem_of_isSegmentsEnd pattern.2

end Glob

namespace Signature

/-- An argument is all text: it holds neither white space nor commas. -/
theorem IsArgument.plain {arg : List Char} (isArgument : IsArgument arg) :
    arg ≠ [] ∧ ∀ c ∈ arg, CharClass.isWhite c = false ∧ c ≠ ',' := by
  have dot : CharClass.isWhite '.' = false ∧ '.' ≠ ',' := by decide
  rcases isArgument with rfl | pattern
  · simp [dot]
  · constructor
    · rintro rfl
      cases pattern
    · intro c mem
      rcases Glob.mem_of_isPattern pattern c mem with segment | rfl | rfl | rfl
      · constructor
        · by_contra white
          simp [not_isSegmentChar_of_isWhite (by simpa using white)] at segment
        · rintro rfl
          revert segment
          decide
      · exact dot
      · decide
      · decide

/-! ### Commas -/

theorem betweenCommas_of_no_comma {cs : List Char} (inside : ∀ c ∈ cs, c ≠ ',') :
    betweenCommas cs = [cs] := by
  induction cs with
  | nil => rfl
  | cons c cs ih =>
    rw [List.forall_mem_cons] at inside
    simp [betweenCommas, inside.1, ih inside.2]

theorem betweenCommas_append {cs rest : List Char} (inside : ∀ c ∈ cs, c ≠ ',') :
    betweenCommas (cs ++ ',' :: rest) = cs :: betweenCommas rest := by
  induction cs with
  | nil => simp [betweenCommas]
  | cons c cs ih =>
    rw [List.forall_mem_cons] at inside
    simp [betweenCommas, inside.1, ih inside.2]

theorem IsBlank.no_comma {cs : List Char} (blank : IsBlank cs) : ∀ c ∈ cs, c ≠ ',' := by
  rintro _ mem rfl
  have white := blank _ mem
  revert white
  decide

/-- An argument with white space around it. -/
theorem padded {before arg after : List Char} (blankBefore : IsBlank before)
    (isArgument : IsArgument arg) (blankAfter : IsBlank after) :
    trimWhite (before ++ (arg ++ after)) = arg ∧ ∀ c ∈ before ++ (arg ++ after), c ≠ ',' := by
  constructor
  · exact trimWhite_eq blankBefore blankAfter fun c mem => (isArgument.plain.2 c mem).1
  · intro c mem
    rcases List.mem_append.mp mem with mem | mem
    · exact IsBlank.no_comma blankBefore c mem
    · rcases List.mem_append.mp mem with mem | mem
      · exact (isArgument.plain.2 c mem).2
      · exact IsBlank.no_comma blankAfter c mem

namespace Arguments

theorem eq_betweenCommas {inside : List Char} {args : List (List Char)} (listed : Arguments inside args) :
    args = (betweenCommas inside).map trimWhite := by
  induction listed with
  | last blankBefore isArgument blankAfter =>
    obtain ⟨trimmed, plain⟩ := padded blankBefore isArgument blankAfter
    rw [betweenCommas_of_no_comma plain, List.map_singleton, trimmed]
  | @more before arg after rest _ blankBefore isArgument blankAfter _ ih =>
    obtain ⟨trimmed, plain⟩ := padded blankBefore isArgument blankAfter
    have whole : before ++ (arg ++ (after ++ ',' :: rest)) = before ++ (arg ++ after) ++ ',' :: rest := by
      simp
    rw [whole, betweenCommas_append plain, List.map_cons, trimmed, ih]

theorem not_isBlank {inside : List Char} {args : List (List Char)} (listed : Arguments inside args) :
    ¬ IsBlank inside := by
  -- Every argument has a character, and it is no white space.
  have visible {arg : List Char} (isArgument : IsArgument arg) : ¬ IsBlank arg := by
    obtain ⟨some, plain⟩ := isArgument.plain
    obtain ⟨c, mem⟩ := List.exists_mem_of_ne_nil arg some
    intro blank
    exact Bool.false_ne_true ((plain c mem).1.symm.trans (blank c mem))
  cases listed with
  | last _ isArgument => simp [visible isArgument]
  | more _ isArgument => simp [visible isArgument]

theorem pad_left {before inside : List Char} {args : List (List Char)} (blank : IsBlank before)
    (listed : Arguments inside args) : Arguments (before ++ inside) args := by
  cases listed with
  | last blankBefore isArgument blankAfter =>
    rw [← List.append_assoc]
    exact .last (by simp [blank, blankBefore]) isArgument blankAfter
  | more blankBefore isArgument blankAfter more =>
    rw [← List.append_assoc]
    exact .more (by simp [blank, blankBefore]) isArgument blankAfter more

theorem pad_right {inside after : List Char} {args : List (List Char)} (blank : IsBlank after)
    (listed : Arguments inside args) : Arguments (inside ++ after) args := by
  induction listed with
  | last blankBefore isArgument blankAfter =>
    rw [List.append_assoc, List.append_assoc]
    exact .last blankBefore isArgument (by simp [blank, blankAfter])
  | more blankBefore isArgument blankAfter _ ih =>
    simpa using Arguments.more blankBefore isArgument blankAfter ih

/-- What stands between commas are arguments, if it is arguments when trimmed. -/
theorem of_betweenCommas {inside : List Char}
    (all : ∀ piece ∈ betweenCommas inside, IsArgument (trimWhite piece)) :
    Arguments inside ((betweenCommas inside).map trimWhite) := by
  induction size : inside.length using Nat.strongRecOn generalizing inside with
  | ind n ih =>
    obtain ⟨first, rest, -, -, rfl, plain, stop⟩ := exists_span (· != ',') inside
    have noComma : ∀ c ∈ first, c ≠ ',' := fun c mem => by simpa using plain c mem
    obtain ⟨before, after, blankBefore, blankAfter, split⟩ := exists_trimWhite first
    cases rest with
    | nil =>
      rw [List.append_nil, betweenCommas_of_no_comma noComma] at all ⊢
      have isArgument := all first List.mem_cons_self
      have last := Arguments.last blankBefore isArgument blankAfter
      rwa [← split] at last
    | cons c rest =>
      obtain rfl : c = ',' := by simpa using stop c rfl
      rw [betweenCommas_append noComma] at all ⊢
      rw [List.forall_mem_cons] at all
      have shorter : rest.length < n := by
        rw [← size, List.length_append, List.length_cons]
        omega
      have more := Arguments.more blankBefore all.1 blankAfter (ih _ shorter all.2 rfl)
      have whole : before ++ (trimWhite first ++ (after ++ ',' :: rest)) =
          before ++ (trimWhite first ++ after) ++ ',' :: rest := by simp
      rwa [whole, ← split] at more

end Arguments

namespace ArgumentList

/-- There is one list of arguments at most. -/
theorem unique {inside : List Char} {args args' : List (List Char)} (list : ArgumentList inside args)
    (list' : ArgumentList inside args') : args = args' := by
  rcases list with ⟨blank, rfl⟩ | listed <;> rcases list' with ⟨blank', rfl⟩ | listed'
  · rfl
  · exact (listed'.not_isBlank blank).elim
  · exact (listed.not_isBlank blank').elim
  · rw [listed.eq_betweenCommas, listed'.eq_betweenCommas]

end ArgumentList

/-! ## Reading -/

/-- The texts of a descriptor. -/
structure Texts where
  owner : List Char
  name : List Char
  args : List (List Char)

namespace Texts

/-- Is a descriptor put together from the texts? -/
def Spell (texts : Texts) (descriptor : List Char) : Prop :=
  Glob.isPattern texts.owner = true ∧
    ∃ inside, Composed descriptor { owner := texts.owner, name := texts.name, args := inside } ∧
      ArgumentList inside texts.args

/-- A descriptor is put together in one way only. -/
theorem Spell.unique {texts texts' : Texts} {descriptor : List Char} (spell : texts.Spell descriptor)
    (spell' : texts'.Spell descriptor) : texts = texts' := by
  obtain ⟨-, inside, composed, list⟩ := spell
  obtain ⟨-, inside', composed', list'⟩ := spell'
  rw [← split?_eq_some_iff] at composed composed'
  obtain ⟨owner, name, rfl⟩ : texts.owner = texts'.owner ∧ texts.name = texts'.name ∧ inside = inside' := by
    simpa using composed.symm.trans composed'
  have args := list.unique list'
  cases texts
  cases texts'
  simp_all

end Texts

/-- The pattern for the name that a text spells. -/
def NamePattern.ofText (name : List Char) : NamePattern :=
  if name = constructorWord then .constructor else .name (Glob.tokens name)

/-- The pattern for an argument that a text spells. -/
def ArgPattern.ofText : List Char → ArgPattern
  | ['.', '.'] => .anySequence
  | ['*'] => .any
  | text => .type (Glob.tokens text)

section

variable [compiler : GlobCompiler]

theorem readGlob_eq_ok_iff {text : List Char} {glob : Glob} :
    readGlob text = .ok glob ↔
      Glob.isPattern text = true ∧ glob = Glob.tokens text ∧ compiler.Takes glob := by
  cases pattern : Glob.isPattern text with
  | false => simp [readGlob, Glob.ofText?, pattern]
  | true =>
    simp only [readGlob, Glob.ofText?, pattern, if_true, true_and, GlobCompiler.Takes,
      List.isEmpty_iff]
    split
    next exact =>
      refine ⟨fun read => ?_, fun same => congrArg _ same.1.symm⟩
      obtain rfl := Except.ok.inj read
      exact ⟨rfl, .inl exact⟩
    next wild =>
      split
      next taken =>
        refine ⟨fun read => ?_, fun same => congrArg _ same.1.symm⟩
        obtain rfl := Except.ok.inj read
        exact ⟨rfl, .inr taken⟩
      next reason refused =>
        refine ⟨fun read => (by cases read), ?_⟩
        rintro ⟨rfl, exact | taken⟩
        · exact (wild exact).elim
        · exact (Option.some_ne_none _ (refused.symm.trans taken)).elim

theorem readArg_eq_ok {text : List Char} {arg : ArgPattern} (read : readArg text = .ok arg) :
    IsArgument text ∧ arg = ArgPattern.ofText text ∧
      ∀ glob ∈ ArgPattern.glob? arg, compiler.Takes glob := by
  have star : Glob.isPattern ['*'] = true := by decide
  rw [readArg.eq_def] at read
  split at read
  · cases read
  · cases read
    exact ⟨.inl rfl, rfl, fun glob none => (Option.not_mem_none glob none).elim⟩
  · cases read
    exact ⟨.inr star, rfl, fun glob none => (Option.not_mem_none glob none).elim⟩
  · next some dots single =>
    cases globbed : readGlob text with
    | error fault => simp [globbed] at read
    | ok glob =>
      obtain ⟨pattern, rfl, taken⟩ := readGlob_eq_ok_iff.mp globbed
      rw [globbed] at read
      obtain rfl := Except.ok.inj read
      rw [ArgPattern.ofText.eq_3 text dots single]
      exact ⟨.inr pattern, rfl, fun glob same => Option.some.inj same ▸ taken⟩

theorem mapM_readArg_eq_ok {pieces : List (List Char)} {args : List ArgPattern}
    (read : (pieces.mapM fun piece => readArg (trimWhite piece)) = .ok args) :
    (∀ piece ∈ pieces, IsArgument (trimWhite piece)) ∧
      args = (pieces.map trimWhite).map ArgPattern.ofText ∧
        ∀ arg ∈ args, ∀ glob ∈ ArgPattern.glob? arg, compiler.Takes glob := by
  induction pieces generalizing args with
  | nil =>
    cases read
    simp
  | cons piece pieces ih =>
    rw [List.mapM_cons] at read
    cases first : readArg (trimWhite piece) with
    | error fault => simp [first] at read; cases read
    | ok arg =>
      cases rest : pieces.mapM fun piece => readArg (trimWhite piece) with
      | error fault => simp [first, rest] at read; cases read
      | ok args' =>
        simp only [first, rest] at read
        cases read
        obtain ⟨isArgument, rfl, taken⟩ := readArg_eq_ok first
        obtain ⟨all, rfl, takenAll⟩ := ih rest
        exact ⟨List.forall_mem_cons.mpr ⟨isArgument, all⟩, rfl,
          List.forall_mem_cons.mpr ⟨taken, takenAll⟩⟩

theorem readArgs_eq_ok {inside : List Char} {args : List ArgPattern}
    (read : readArgs inside = .ok args) :
    (∃ texts, ArgumentList inside texts ∧ args = texts.map ArgPattern.ofText) ∧
      ∀ arg ∈ args, ∀ glob ∈ ArgPattern.glob? arg, compiler.Takes glob := by
  rw [readArgs.eq_def] at read
  split at read
  · next nil =>
    cases read
    exact ⟨⟨[], .inl ⟨trimWhite_eq_nil_iff.mp nil, rfl⟩, rfl⟩,
      fun arg none => (List.not_mem_nil none).elim⟩
  · obtain ⟨before, after, blankBefore, blankAfter, split⟩ := exists_trimWhite inside
    obtain ⟨all, rfl, taken⟩ := mapM_readArg_eq_ok read
    have listed := (Arguments.of_betweenCommas all).pad_right blankAfter |>.pad_left blankBefore
    rw [← split] at listed
    exact ⟨⟨_, .inr listed, rfl⟩, taken⟩

theorem takes_globs {s : Signature} (owner : compiler.Takes s.owner)
    (name : ∀ glob ∈ NamePattern.glob? s.name, compiler.Takes glob)
    (args : ∀ arg ∈ s.args, ∀ glob ∈ ArgPattern.glob? arg, compiler.Takes glob) :
    ∀ glob ∈ s.globs, compiler.Takes glob := by
  refine List.forall_mem_append.mpr ⟨List.forall_mem_cons.mpr ⟨owner, fun glob mem => ?_⟩, ?_⟩
  · exact name glob (Option.mem_toList.mp mem)
  · intro glob mem
    obtain ⟨arg, mem, same⟩ := List.mem_filterMap.mp mem
    exact args arg mem glob same

/-- What is read as a signature is put together from texts, which spell its patterns, and the
patterns are taken. -/
theorem spell_of_parse {descriptor : String} {s : Signature} (parsed : parse descriptor = .ok s) :
    (∃ texts : Texts, texts.Spell descriptor.toList ∧ s.owner = Glob.tokens texts.owner ∧
      s.name = NamePattern.ofText texts.name ∧ s.args = texts.args.map ArgPattern.ofText) ∧
      ∀ glob ∈ s.globs, compiler.Takes glob := by
  simp only [parse] at parsed
  cases parts : split? descriptor.toList with
  | none => simp only [parts] at parsed; cases parsed
  | some parts' =>
    simp only [parts] at parsed
    cases owner : readGlob parts'.owner with
    | error fault => simp only [owner] at parsed; cases parsed
    | ok glob =>
      obtain ⟨pattern, rfl, takenOwner⟩ := readGlob_eq_ok_iff.mp owner
      cases args : readArgs parts'.args with
      | error fault =>
        simp only [owner, args] at parsed
        split at parsed
        · cases parsed
        · cases named : readGlob parts'.name <;> simp only [named] at parsed <;> cases parsed
      | ok args' =>
        obtain ⟨⟨texts, list, rfl⟩, takenArgs⟩ := readArgs_eq_ok args
        have spell : Texts.Spell ⟨parts'.owner, parts'.name, texts⟩ descriptor.toList :=
          ⟨pattern, parts'.args, split?_eq_some_iff.mp parts, list⟩
        simp only [owner, args] at parsed
        by_cases word : parts'.name = constructorWord
        · simp only [word, beq_self_eq_true, if_true] at parsed
          cases parsed
          exact ⟨⟨_, spell, rfl, (if_pos word).symm, rfl⟩,
            takes_globs takenOwner (fun glob none => (Option.not_mem_none glob none).elim) takenArgs⟩
        · simp only [beq_eq_false_iff_ne.mpr word, Bool.false_eq_true, if_false] at parsed
          cases named : readGlob parts'.name with
          | error fault => simp only [named] at parsed; cases parsed
          | ok name =>
            obtain ⟨-, rfl, takenName⟩ := readGlob_eq_ok_iff.mp named
            simp only [named] at parsed
            cases parsed
            exact ⟨⟨_, spell, rfl, (if_neg word).symm, rfl⟩,
              takes_globs takenOwner (fun glob same => Option.some.inj same ▸ takenName) takenArgs⟩

end

end Signature

/-! ## Meaning -/

/-- The names of a type: that of a class before those of its supertypes, the keyword of a
primitive type. -/
def Ty.names : Ty → List String
  | .cls fqn supers => fqn :: supers
  | .primitive kind => [kind.keyword]
  | .null | .unknown => []

theorem Glob.acceptsTyOrSuper_iff {text : List Char} {ty : Ty} :
    (tokens text).acceptsTyOrSuper ty = true ↔ ∃ name ∈ ty.names, Spells text name.toList := by
  cases ty <;> simp [acceptsTyOrSuper, acceptsTy, Ty.names, accepts_tokens]

namespace Signature

/-- The types of parameters that the text of an argument takes. -/
inductive Takes : List Char → List Ty → Prop where
  /-- Two dots take any types. -/
  | anySequence (types : List Ty) : Takes ['.', '.'] types
  /-- A star takes one type, whichever it is. -/
  | any (ty : Ty) : Takes ['*'] [ty]
  | cls {text : List Char} {fqn : String} (supers : List String) (spells : Glob.Spells text fqn.toList) :
      Takes text [.cls fqn supers]
  | primitive {text : List Char} {kind : Primitive} (spells : Glob.Spells text kind.keyword.toList) :
      Takes text [.primitive kind]

/-- Does a descriptor of these texts stand for the member? -/
structure Texts.Describes (texts : Texts) (m : MethodRef) : Prop where
  /-- Constructors go by their word and everything else by its name. -/
  constructs : texts.name = constructorWord ↔ m.name = MethodRef.constructorName
  named : texts.name ≠ constructorWord → Glob.Spells texts.name m.name.toList
  /-- The declaring type may go by the name of a supertype. -/
  owned : ∃ name ∈ m.owner.names, Glob.Spells texts.owner name.toList
  /-- The parameters fall into pieces, one for each argument. -/
  takes : ∃ pieces : List (List Ty), pieces.flatten = m.params ∧ List.Forall₂ Takes texts.args pieces

theorem mem_suffixes {α : Type} {rest list : List α} :
    rest ∈ suffixes list ↔ ∃ front, list = front ++ rest := by
  induction list with
  | nil => simp [suffixes]
  | cons a list ih =>
    simp only [suffixes, List.mem_cons, ih, List.cons_eq_append_iff]
    constructor
    · rintro (rfl | ⟨front, rfl⟩)
      · exact ⟨[], .inl ⟨rfl, rfl⟩⟩
      · exact ⟨a :: front, .inr ⟨front, rfl, rfl⟩⟩
    · rintro ⟨front, ⟨-, rfl⟩ | ⟨front', -, rfl⟩⟩
      · exact .inl rfl
      · exact .inr ⟨front', rfl⟩

/-- A pattern that is not for any sequence takes one type. -/
theorem acceptsArgs_cons {text : List Char} {patterns : List ArgPattern} {types : List Ty} :
    acceptsArgs (ArgPattern.ofText text :: patterns) types = true ↔
      ∃ piece rest, types = piece ++ rest ∧ Takes text piece ∧ acceptsArgs patterns rest = true := by
  rw [ArgPattern.ofText.eq_def]
  split
  · simp only [acceptsArgs, List.any_eq_true, mem_suffixes]
    constructor
    · rintro ⟨rest, ⟨piece, rfl⟩, accepted⟩
      exact ⟨piece, rest, rfl, .anySequence piece, accepted⟩
    · rintro ⟨piece, rest, rfl, -, accepted⟩
      exact ⟨rest, ⟨piece, rfl⟩, accepted⟩
  · have single {piece : List Ty} (takes : Takes ['*'] piece) : ∃ ty, piece = [ty] := by
      cases takes <;> exact ⟨_, rfl⟩
    constructor
    · intro accepted
      cases types with
      | nil => cases accepted
      | cons ty types => exact ⟨[ty], types, rfl, .any ty, accepted⟩
    · rintro ⟨piece, rest, rfl, takes, accepted⟩
      obtain ⟨ty, rfl⟩ := single takes
      exact accepted
  · next dots star =>
    constructor
    · intro accepted
      cases types with
      | nil => cases accepted
      | cons ty types =>
        simp only [acceptsArgs, Bool.and_eq_true] at accepted
        refine ⟨[ty], types, rfl, ?_, accepted.2⟩
        cases ty with
        | cls fqn supers => exact .cls supers ((Glob.accepts_tokens _ _).mp accepted.1)
        | primitive kind => exact .primitive ((Glob.accepts_tokens _ _).mp accepted.1)
        | null | unknown => cases accepted.1
    · rintro ⟨piece, rest, rfl, takes, accepted⟩
      cases takes with
      | anySequence => exact (dots rfl).elim
      | any => exact (star rfl).elim
      | cls supers spells => simp [acceptsArgs, Glob.acceptsTy, Glob.accepts_tokens, spells, accepted]
      | primitive spells => simp [acceptsArgs, Glob.acceptsTy, Glob.accepts_tokens, spells, accepted]

/-- The arguments accept the types that can be cut into a piece for each of them. -/
theorem acceptsArgs_iff {args : List (List Char)} {types : List Ty} :
    acceptsArgs (args.map ArgPattern.ofText) types = true ↔
      ∃ pieces : List (List Ty), pieces.flatten = types ∧ List.Forall₂ Takes args pieces := by
  induction args generalizing types with
  | nil =>
    simp only [List.map_nil, acceptsArgs, List.isEmpty_iff, List.forall₂_nil_left_iff, exists_eq_right,
      List.flatten_nil]
    exact eq_comm
  | cons arg args ih =>
    rw [List.map_cons, acceptsArgs_cons]
    constructor
    · rintro ⟨piece, rest, rfl, takes, accepted⟩
      obtain ⟨pieces, rfl, all⟩ := ih.mp accepted
      exact ⟨piece :: pieces, rfl, .cons takes all⟩
    · rintro ⟨_, rfl, _ | ⟨takes, all⟩⟩
      exact ⟨_, _, rfl, takes, ih.mpr ⟨_, rfl, all⟩⟩

theorem accepts_ofText_iff {name : List Char} {m : MethodRef} :
    NamePattern.accepts (NamePattern.ofText name) m = true ↔
      (name = constructorWord ↔ m.name = MethodRef.constructorName) ∧
        (name ≠ constructorWord → Glob.Spells name m.name.toList) := by
  by_cases word : name = constructorWord
  · simp [NamePattern.ofText, NamePattern.accepts, MethodRef.isConstructor, word]
  · simp [NamePattern.ofText, NamePattern.accepts, MethodRef.isConstructor, word, Glob.accepts_tokens]

/-- A descriptor that can be read has its texts, and no others, and the signature that is
read from it accepts the members that they stand for. -/
theorem accepts_iff_describes [GlobCompiler] {descriptor : String} {s : Signature}
    (parsed : parse descriptor = .ok s) :
    ∃ texts : Texts, texts.Spell descriptor.toList ∧
      (∀ others : Texts, others.Spell descriptor.toList → others = texts) ∧
      ∀ m : MethodRef, s.accepts m = true ↔ texts.Describes m := by
  obtain ⟨⟨texts, spell, owner, name, args⟩, -⟩ := spell_of_parse parsed
  refine ⟨texts, spell, fun others other => other.unique spell, fun m => ?_⟩
  rw [accepts, owner, name, args, Bool.and_eq_true, Bool.and_eq_true, accepts_ofText_iff,
    Glob.acceptsTyOrSuper_iff, acceptsArgs_iff]
  constructor
  · rintro ⟨⟨⟨constructs, named⟩, owned⟩, takes⟩
    exact { constructs, named, owned, takes }
  · intro describes
    exact ⟨⟨⟨describes.constructs, describes.named⟩, describes.owned⟩, describes.takes⟩

/-- `java..Files createTemp*(.., java.lang.String)` stands for the creation of a file in the
default directory: the package goes by two dots, and the prefix is the sequence before the
suffix. -/
theorem accepts_createTempFile :
    Texts.Describes
      { owner := "java..Files".toList, name := "createTemp*".toList,
        args := ["..".toList, "java.lang.String".toList] }
      Jdk.filesCreateTempFile := by
  have parsed : @parse .standard "java..Files createTemp*(.., java.lang.String)" = .ok
      { descriptor := "java..Files createTemp*(.., java.lang.String)"
        owner := Glob.tokens "java..Files".toList
        name := .name (Glob.tokens "createTemp*".toList)
        args := [.anySequence, .type (Glob.tokens "java.lang.String".toList)] } := by
    rfl
  have spell : Texts.Spell
      { owner := "java..Files".toList, name := "createTemp*".toList,
        args := ["..".toList, "java.lang.String".toList] }
      "java..Files createTemp*(.., java.lang.String)".toList := by
    refine ⟨by decide, ".., java.lang.String".toList, split?_eq_some_iff.mp (by rfl), .inr ?_⟩
    have last : Arguments ([' '] ++ ("java.lang.String".toList ++ [])) _ :=
      .last (by simp; decide) (.inr (by decide)) isBlank_nil
    exact .more isBlank_nil (.inl rfl) isBlank_nil last
  obtain ⟨texts, -, only, accepted⟩ := @accepts_iff_describes .standard _ _ parsed
  rw [only _ spell]
  exact (accepted _).mp (by decide)

end Signature

end JavaMend
