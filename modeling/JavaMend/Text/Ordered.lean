/-!
# Ordered texts

Sets and tables of texts that are kept in ascending order, so that two of them
with the same contents are equal and are always listed in the same way.
-/

namespace JavaMend

/-- Adds a text to an ordered set. -/
def insertText (text : String) : List String → List String
  | [] => [text]
  | t :: rest =>
    if text < t then text :: t :: rest
    else if text = t then t :: rest
    else t :: insertText text rest

/-- The ordered set of some texts. -/
def orderedTexts (texts : List String) : List String :=
  texts.foldl (fun set text => insertText text set) []

/-- Puts a value under a key of an ordered table, in place of the one that
stood there. -/
def insertEntry {α : Type} (key : String) (value : α) :
    List (String × α) → List (String × α)
  | [] => [(key, value)]
  | (k, v) :: rest =>
    if key < k then (key, value) :: (k, v) :: rest
    else if key = k then (key, value) :: rest
    else (k, v) :: insertEntry key value rest

end JavaMend
