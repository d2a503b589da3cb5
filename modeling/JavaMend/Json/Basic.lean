/-!
# JSON values

Objects keep their fields in the order they were written, repeated names
included; what a repeated name means is for the reader of the object to say.

A value can be written correctly and still stand for nothing: a number beyond
every double, a text with half a surrogate pair, a nesting too deep to take.
Such a value is `flawed`. Whoever reads it fails; whoever passes over it does
not notice.
-/

namespace JavaMend

inductive Json where
  | null
  | bool (value : Bool)
  /-- The number `mantissa * 10 ^ exponent`. -/
  | num (mantissa exponent : Int)
  | str (value : String)
  | arr (items : List Json)
  | obj (fields : List (String × Json))
  | flawed

namespace Json

def ofNat (n : Nat) : Json := .num n 0

def ofStrings (texts : List String) : Json := .arr (texts.map .str)

/-- The value, or `null` in its absence. -/
def ofOption {α : Type} (f : α → Json) : Option α → Json
  | some a => f a
  | none => .null

def str? : Json → Option String
  | str value => some value
  | _ => none

def bool? : Json → Option Bool
  | bool value => some value
  | _ => none

/-- A number written without fraction and exponent. -/
def int? : Json → Option Int
  | num mantissa 0 => some mantissa
  | _ => none

/-- The last value under a name among fields, with the proof that it is
smaller than them. -/
def lastField? (name : String) :
    (fields : List (String × Json)) → Option { v : Json // sizeOf v < sizeOf fields }
  | [] => none
  | (key, value) :: rest =>
    match lastField? name rest with
    | some ⟨v, h⟩ => some ⟨v, by simp; omega⟩
    | none => if key == name then some ⟨value, by simp; omega⟩ else none

/-- The field of an object, with the proof that it is smaller than the object.
Of a repeated name the last field counts. -/
def child? (j : Json) (name : String) : Option { v : Json // sizeOf v < sizeOf j } :=
  match j with
  | obj fields => (lastField? name fields).map fun ⟨v, h⟩ => ⟨v, by simp; omega⟩
  | _ => none

/-- The items of an array, with the proofs that they are smaller than it. -/
def children (j : Json) : List { v : Json // sizeOf v < sizeOf j } :=
  match j with
  | arr items => items.attach.map fun ⟨v, h⟩ => ⟨v, by
      have := List.sizeOf_lt_of_mem h
      simp; omega⟩
  | _ => []

/-- The field of an object. -/
def field? (j : Json) (name : String) : Option Json := (j.child? name).map (·.1)

/-- The field of an object, if it is there and not `null`. -/
def present? (j : Json) (name : String) : Option { v : Json // sizeOf v < sizeOf j } :=
  match j.child? name with
  | some ⟨null, _⟩ => none
  | other => other

/-- The items of the array in a field; none if there is no such array. -/
def itemsOf (j : Json) (name : String) : List { v : Json // sizeOf v < sizeOf j } :=
  match j.child? name with
  | some ⟨v, h⟩ => v.children.map fun ⟨w, hw⟩ => ⟨w, by omega⟩
  | none => []

/-- The text in a field. -/
def strField? (j : Json) (name : String) : Option String := (j.field? name).bind str?

/-- The number in a field. -/
def intField? (j : Json) (name : String) : Option Int := (j.field? name).bind int?

/-- Is the field there and true? -/
def flag (j : Json) (name : String) : Bool := (j.field? name).bind bool? == some true

/-- The texts in the array of a field; other items are passed over. -/
def strsOf (j : Json) (name : String) : List String := (j.itemsOf name).filterMap (·.1.str?)

end Json

end JavaMend
