import Barrage.Document.Json

/-!
# Reading records out of documents

A record is written as an object with its fields in any order, or as an array of its fields in their
declared order. Fields that nobody asks for are passed over unread; a field that is asked for may not be
given twice. Records nest at most to a fixed depth.

## Main definitions

* `Json.Reader`: reads a value at some remaining depth
* `Json.record?`: the fields of a record
* `Json.field`, `Json.required`: a field with a default, and one without
* `Json.wellFormed`: whether every part of a tree can be read
-/

namespace Barrage.Json

/-- The depth that documents may nest to. -/
def maxDepth : Nat := 128

/-- Reads a value, given the depth that remains. -/
abbrev Reader (α : Type) := (depth : Nat) → Json → Option α

/-- The depth that remains inside an array or object, if one may start here. -/
def enter? (depth : Nat) : Option Nat := if depth ≤ 1 then none else some (depth - 1)

/-- A truth value. -/
def readBool : Reader Bool
  | _, bool b => some b
  | _, _ => none

/-- A text. -/
def readText : Reader String
  | _, text s => s
  | _, _ => none

/-- A double, for which whole numbers are taken as well. -/
def readFloat : Reader Float
  | _, number n => n.value?.map NumberValue.toFloat
  | _, _ => none

/-- An unsigned whole number below a bound. -/
def readNat (bound : Nat) : Reader Nat
  | _, number n =>
    match n.value? with
    | some (.word w) => if w < bound then some w else none
    | _ => none
  | _, _ => none

/-- A value that may be null. -/
def readOptional {α : Type} (read : Reader α) : Reader (Option α)
  | _, null => some none
  | depth, json => (read depth json).map some

/-- An array of values. -/
def readList {α : Type} (read : Reader α) : Reader (List α)
  | depth, array items => do
    let depth ← enter? depth
    items.mapM (read depth)
  | _, _ => none

/-- One of some names, alone or as the only key of an object with null. -/
def readName {α : Type} (ofName? : String → Option α) : Reader α
  | _, text s => do ofName? (← s)
  | depth, object [(key, null)] => do
    let _ ← enter? depth
    ofName? (← key)
  | _, _ => none

/-- The fields of an object among the given names, in their order. Every key has to be readable, and none
of the names may occur twice. -/
def pick? (names : List String) (fields : List (Option String × Json)) : Option (List (Option Json)) := do
  let fields ← fields.mapM fun (key, value) => key.map (·, value)
  names.mapM fun name =>
    match fields.filter (·.1 == name) with
    | [] => some none
    | [(_, value)] => some (some value)
    | _ => none

/-- The fields of an array in the declared order; fields at the end may be missing. -/
def spread? (names : List String) (items : List Json) : Option (List (Option Json)) :=
  if names.length < items.length then none
  else some (items.map some ++ List.replicate (names.length - items.length) none)

/-- The fields of a record, and the depth that remains inside it. -/
def record? (names : List String) : Reader (Nat × List (Option Json))
  | depth, object fields => do
    let depth ← enter? depth
    some (depth, ← pick? names fields)
  | depth, array items => do
    let depth ← enter? depth
    some (depth, ← spread? names items)
  | _, _ => none

/-- A field with a default. -/
def field {α : Type} (read : Reader α) (default : α) (depth : Nat) : Option Json → Option α
  | none => some default
  | some json => read depth json

/-- A field that has to be given. -/
def required {α : Type} (read : Reader α) (depth : Nat) : Option Json → Option α
  | none => none
  | some json => read depth json

mutual

/-- Whether every part of a tree can be read: all texts and keys have a value, all numbers are in range,
and nothing nests too deeply. -/
def wellFormed (depth : Nat) : Json → Bool
  | null | bool _ => true
  | number n => n.value?.isSome
  | text s => s.isSome
  | array items =>
    match enter? depth with
    | some depth => wellFormedItems depth items
    | none => false
  | object fields =>
    match enter? depth with
    | some depth => wellFormedFields depth fields
    | none => false

/-- Whether every part of every item can be read. -/
def wellFormedItems (depth : Nat) : List Json → Bool
  | [] => true
  | item :: items => wellFormed depth item && wellFormedItems depth items

/-- Whether every part of every field can be read. -/
def wellFormedFields (depth : Nat) : List (Option String × Json) → Bool
  | [] => true
  | (key, value) :: fields => key.isSome && wellFormed depth value && wellFormedFields depth fields

end

/-- Reads a whole document. -/
def readDocument? {α : Type} (read : Reader α) (document : String) : Option α := do
  read maxDepth (← parse? document)

end Barrage.Json
