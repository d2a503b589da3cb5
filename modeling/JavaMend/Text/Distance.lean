/-!
# Edit distance

The least number of insertions, deletions and replacements of single
characters that turn one text into another, computed row by row: the row of a
text holds its distances to every beginning of the other text, shortest first.
-/

namespace JavaMend

/-- The rest of a row, after the entry `left`, for a text that now ends in `c`.
`above` is the row of the text without `c`, from the entry above `left` on. -/
def editRow (c : Char) (left : Nat) : List Nat → List Char → List Nat
  | diagonal :: up :: above, d :: ds =>
    let entry := min (min (up + 1) (left + 1)) (diagonal + if c = d then 0 else 1)
    entry :: editRow c entry (up :: above) ds
  | _, _ => []

/-- The last row for `source`, starting from the row for the text before it,
which has `length` characters. -/
def editRows (target : List Char) (length : Nat) (row : List Nat) : List Char → List Nat
  | [] => row
  | c :: source =>
    editRows target (length + 1) ((length + 1) :: editRow c (length + 1) row target) source

/-- The edit distance of two texts. -/
def editDistance (source target : String) : Nat :=
  let target := target.toList
  ((editRows target 0 (List.range (target.length + 1)) source.toList).getLast?).getD 0

/-- The first of the texts nearest to `target`. -/
def nearestText? (target : String) (texts : List String) : Option String :=
  (texts.foldl (nearer target) none).map (·.1)
where
  /-- Keeps the nearer of the best text so far and a new one, the old one if
  they are equally near. -/
  nearer (target : String) (best : Option (String × Nat)) (text : String) :
      Option (String × Nat) :=
    let distance := editDistance target text
    match best with
    | some (old, least) => if distance < least then some (text, distance) else some (old, least)
    | none => some (text, distance)

end JavaMend
