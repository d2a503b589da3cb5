import Mathlib.Data.List.Basic
import Mathlib.Data.List.Forall2
import JavaMend.Match.Glob

/-!
# The names of a pattern

A name matches a pattern if it comes out of the text of the pattern by putting
characters of a segment in the place of each `*`, and a dot and any number of
segments, each with a dot after it, in the place of each `..` (`Glob.Spells`). The
matcher goes by sets of remainders instead, and `Glob.accepts_tokens` says that it
comes to the same.
-/

namespace JavaMend

/-- A segment of a name: some characters, and at least one. -/
def IsSegment (cs : List Char) : Prop := cs ≠ [] ∧ ∀ c ∈ cs, isNameChar c = true

/-- Segments with a dot after each of them. -/
def dotted (segments : List (List Char)) : List Char := segments.flatMap (· ++ ['.'])

@[simp] theorem dotted_nil : dotted [] = [] := rfl

@[simp] theorem dotted_cons (s : List Char) (segments : List (List Char)) :
    dotted (s :: segments) = s ++ '.' :: dotted segments := by
  simp [dotted]

/-- The names that the text of a pattern spells. -/
inductive Glob.Spells : List Char → List Char → Prop where
  | done : Spells [] []
  | anySegments {pattern name : List Char} (segments : List (List Char))
      (inside : ∀ s ∈ segments, IsSegment s) (rest : Spells pattern name) :
      Spells ('.' :: '.' :: pattern) ('.' :: dotted segments ++ name)
  | anyChars {pattern name : List Char} (run : List Char) (inside : ∀ c ∈ run, isNameChar c = true)
      (rest : Spells pattern name) : Spells ('*' :: pattern) (run ++ name)
  | char {pattern name : List Char} (c : Char) (noStar : c ≠ '*')
      (noDots : c = '.' → pattern.head? ≠ some '.') (rest : Spells pattern name) :
      Spells (c :: pattern) (c :: name)

theorem isNameChar_dot : isNameChar '.' = false := by decide

/-! ## What a token takes -/

namespace GlobToken

/-- The parts of names that a token stands for. -/
def Gives : GlobToken → List Char → Prop
  | char c, piece => piece = [c]
  | anyChars, piece => ∀ c ∈ piece, isNameChar c = true
  | anySegments, piece => ∃ segments, (∀ s ∈ segments, IsSegment s) ∧ piece = '.' :: dotted segments

theorem mem_afterChars {cs rest : List Char} : rest ∈ afterChars cs ↔
    ∃ run, (∀ c ∈ run, isNameChar c = true) ∧ cs = run ++ rest := by
  induction cs with
  | nil => simp [afterChars]
  | cons c cs ih =>
    rw [afterChars, List.mem_cons]
    constructor
    · rintro (rfl | mem)
      · exact ⟨[], by simp, rfl⟩
      · cases named : isNameChar c with
        | false => simp [named] at mem
        | true =>
          simp only [named, if_true] at mem
          obtain ⟨run, inside, rfl⟩ := ih.mp mem
          exact ⟨c :: run, List.forall_mem_cons.mpr ⟨named, inside⟩, rfl⟩
    · rintro ⟨run, inside, split⟩
      cases run with
      | nil => exact .inl split.symm
      | cons d run =>
        obtain ⟨rfl, rfl⟩ := List.cons.inj split
        rw [List.forall_mem_cons] at inside
        rw [inside.1, if_pos rfl]
        exact .inr (ih.mpr ⟨run, inside.2, rfl⟩)

/-- The segment that is under way is the first of them. -/
theorem mem_afterSegments {named : Bool} {cs rest : List Char} : rest ∈ afterSegments named cs ↔
    ∃ run segments, (named = true ∨ run ≠ []) ∧ (∀ c ∈ run, isNameChar c = true) ∧
      (∀ s ∈ segments, IsSegment s) ∧ cs = run ++ '.' :: dotted segments ++ rest := by
  induction cs generalizing named with
  | nil => simp [afterSegments]
  | cons c cs ih =>
    rw [afterSegments]
    by_cases dot : c = '.'
    · subst dot
      -- A segment has no dot, so the run before this one is empty.
      have empty : ∀ run segments, (∀ c ∈ run, isNameChar c = true) →
          '.' :: cs = run ++ '.' :: dotted segments ++ rest → run = [] := by
        intro run segments inside split
        cases run with
        | nil => rfl
        | cons d run =>
          obtain ⟨rfl, -⟩ := List.cons.inj split
          simp [isNameChar_dot] at inside
      cases named with
      | false =>
        simp only [beq_self_eq_true, if_true, Bool.false_eq_true, if_false, List.not_mem_nil, false_iff]
        rintro ⟨run, segments, started, inside, -, split⟩
        simp [empty run segments inside split] at started
      | true =>
        simp only [beq_self_eq_true, if_true, List.mem_cons, ih]
        constructor
        · rintro (rfl | ⟨run, segments, started, inside, whole, rfl⟩)
          · exact ⟨[], [], by simp⟩
          · exact ⟨[], run :: segments, by simp, by simp,
              List.forall_mem_cons.mpr ⟨⟨by simpa using started, inside⟩, whole⟩, by simp⟩
        · rintro ⟨run, segments, -, inside, whole, split⟩
          cases empty run segments inside split
          cases segments with
          | nil => exact .inl (by simpa using split.symm)
          | cons s segments =>
            rw [List.forall_mem_cons] at whole
            exact .inr ⟨s, segments, .inr whole.1.1, whole.1.2, whole.2, by simpa using split⟩
    · cases name : isNameChar c with
      | false =>
        simp only [beq_iff_eq, dot, if_false, Bool.false_eq_true, List.not_mem_nil, false_iff]
        rintro ⟨run, segments, -, inside, -, split⟩
        cases run with
        | nil => exact dot (List.cons.inj split).1
        | cons d run =>
          obtain ⟨rfl, -⟩ := List.cons.inj split
          simp [name] at inside
      | true =>
        simp only [beq_iff_eq, dot, if_false, if_true, ih]
        constructor
        · rintro ⟨run, segments, -, inside, whole, rfl⟩
          exact ⟨c :: run, segments, by simp, List.forall_mem_cons.mpr ⟨name, inside⟩, whole, rfl⟩
        · rintro ⟨run, segments, -, inside, whole, split⟩
          cases run with
          | nil => exact (dot (List.cons.inj split).1).elim
          | cons d run =>
            obtain ⟨rfl, rfl⟩ := List.cons.inj split
            rw [List.forall_mem_cons] at inside
            exact ⟨run, segments, .inl trivial, inside.2, whole, rfl⟩

/-- What a token leaves of a name is what follows a part that it stands for. -/
theorem mem_rests {token : GlobToken} {cs rest : List Char} : rest ∈ token.rests cs ↔
    ∃ piece, token.Gives piece ∧ cs = piece ++ rest := by
  cases token with
  | char c =>
    cases cs with
    | nil => simp [rests, Gives]
    | cons d cs =>
      by_cases same : c = d
      · simp [rests, Gives, same, eq_comm]
      · simp [rests, Gives, same, Ne.symm same]
  | anyChars => exact mem_afterChars
  | anySegments =>
    cases cs with
    | nil => simp [rests, Gives]
    | cons d cs =>
      by_cases dot : d = '.'
      · subst dot
        simp only [rests, List.mem_cons, mem_afterSegments, Bool.false_eq_true, false_or]
        constructor
        · rintro (rfl | ⟨run, segments, started, inside, whole, rfl⟩)
          · exact ⟨['.'], ⟨[], by simp⟩, rfl⟩
          · exact ⟨_, ⟨run :: segments, List.forall_mem_cons.mpr ⟨⟨started, inside⟩, whole⟩, rfl⟩,
              by simp⟩
        · rintro ⟨_, ⟨segments, whole, rfl⟩, split⟩
          cases segments with
          | nil => exact .inl (by simpa using split.symm)
          | cons s segments =>
            rw [List.forall_mem_cons] at whole
            exact .inr ⟨s, segments, whole.1.1, whole.1.2, whole.2, by simpa using split⟩
      · have none : GlobToken.anySegments.rests (d :: cs) = [] := by simp [rests, dot]
        rw [none]
        simp only [List.not_mem_nil, false_iff]
        rintro ⟨_, ⟨segments, -, rfl⟩, split⟩
        exact dot (List.cons.inj split).1

end GlobToken

/-! ## What a pattern accepts -/

namespace Glob

theorem mem_rests {glob : Glob} {names : List (List Char)} {rest : List Char} : rest ∈ glob.rests names ↔
    ∃ name ∈ names, ∃ pieces, List.Forall₂ GlobToken.Gives glob pieces ∧
      name = pieces.flatten ++ rest := by
  induction glob generalizing names with
  | nil => simp [rests]
  | cons token glob ih =>
    have step : rests (token :: glob) names = rests glob ((names.flatMap token.rests).eraseDups) := rfl
    rw [step, ih]
    simp only [List.mem_eraseDups, List.mem_flatMap, GlobToken.mem_rests]
    constructor
    · rintro ⟨_, ⟨name, mem, piece, gives, rfl⟩, pieces, all, rfl⟩
      exact ⟨_, mem, piece :: pieces, .cons gives all, by simp⟩
    · rintro ⟨name, mem, pieces, all, rfl⟩
      cases all with
      | @cons _ piece _ pieces gives all =>
        exact ⟨_, ⟨_, mem, piece, gives, by simp⟩, pieces, all, rfl⟩

/-- A name is accepted if it can be cut into parts for the tokens. -/
theorem accepts_iff {glob : Glob} {name : String} : glob.accepts name = true ↔
    ∃ pieces, List.Forall₂ GlobToken.Gives glob pieces ∧ name.toList = pieces.flatten := by
  simp [accepts, mem_rests, and_comm, eq_comm]

/-- Parts for the tokens of a pattern are what its text spells. -/
theorem spells_iff {text name : List Char} : Spells text name ↔
    ∃ pieces, List.Forall₂ GlobToken.Gives (tokens text) pieces ∧ name = pieces.flatten := by
  induction text using tokens.induct generalizing name with
  | case1 =>
    simp only [tokens, List.forall₂_nil_left_iff, exists_eq_left, List.flatten_nil]
    exact ⟨fun h => by cases h; rfl, fun h => h ▸ .done⟩
  | case2 pattern ih =>
    simp only [tokens]
    constructor
    · intro spells
      cases spells with
      | anySegments segments inside rest =>
        obtain ⟨pieces, all, rfl⟩ := ih.mp rest
        exact ⟨_ :: pieces, .cons ⟨segments, inside, rfl⟩ all, rfl⟩
      | char _ _ noDots => exact (noDots rfl rfl).elim
    · rintro ⟨_, _ | ⟨⟨segments, inside, rfl⟩, all⟩, rfl⟩
      exact .anySegments segments inside (ih.mpr ⟨_, all, rfl⟩)
  | case3 pattern ih =>
    simp only [tokens]
    constructor
    · intro spells
      cases spells with
      | anyChars run inside rest =>
        obtain ⟨pieces, all, rfl⟩ := ih.mp rest
        exact ⟨run :: pieces, .cons inside all, rfl⟩
      | char _ noStar => exact (noStar rfl).elim
    · rintro ⟨_, _ | ⟨inside, all⟩, rfl⟩
      exact .anyChars _ inside (ih.mpr ⟨_, all, rfl⟩)
  | case4 c pattern noDots noStar ih =>
    rw [tokens.eq_4 c pattern noDots noStar]
    constructor
    · intro spells
      cases spells with
      | anySegments => exact (noDots _ rfl rfl).elim
      | anyChars => exact (noStar rfl).elim
      | char _ _ _ rest =>
        obtain ⟨pieces, all, rfl⟩ := ih.mp rest
        exact ⟨[c] :: pieces, .cons rfl all, rfl⟩
    · rintro ⟨_, _ | ⟨rfl, all⟩, rfl⟩
      refine .char c noStar ?_ (ih.mpr ⟨_, all, rfl⟩)
      rintro rfl dots
      cases pattern with
      | nil => cases dots
      | cons d pattern =>
        cases Option.some.inj dots
        exact noDots pattern rfl rfl

/-- The names that match a pattern are those that its text spells. -/
theorem accepts_tokens (text : List Char) (name : String) :
    (tokens text).accepts name = true ↔ Spells text name.toList := by
  rw [accepts_iff, spells_iff]

end Glob

end JavaMend
