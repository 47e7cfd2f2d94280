import Barrage.Expr.Basic

/-!
# Lookups instead of objects

A printed unit cannot hold a host object, only the key to look it up by. Hoisting replaces every object
in a tree by a variable and lists the lookups that the variables stand for, one for each object however
often it occurs. The names contain two underscores, which source names never do.

## Main definitions

* `HostRef`, `Hoisted`: a lookup, and the variable that holds its result
* `Expr.hoist`: a tree without objects, with its lookups in the order of first occurrence
-/

namespace Barrage

/-- A lookup of a host object. -/
inductive HostRef where
  | timer (name : String)
  | entity (id : String)
deriving DecidableEq, Repr

/-- What a lookup is for, as part of the variable's name. -/
def HostRef.kind : HostRef → String
  | timer _ => "timer"
  | entity _ => "entity"

/-- The key of a lookup. -/
def HostRef.key : HostRef → String
  | timer name => name
  | entity id => id

/-- A variable that holds the result of a lookup. -/
structure Hoisted where
  name : String
  object : HostRef
deriving DecidableEq, Repr

namespace Expr

/-- The variable for an object, which is listed if it is not yet. -/
def hoistObject (object : HostRef) (found : List Hoisted) : Expr × List Hoisted :=
  match found.find? (·.object == object) with
  | some known => (var known.name, found)
  | none =>
    let name := s!"{object.kind}__{found.length}"
    (var name, found ++ [⟨name, object⟩])

mutual

/-- Replaces the objects of a tree from left to right, given the lookups listed so far. -/
def hoistWith : Expr → List Hoisted → Expr × List Hoisted
  | const (.timer handle), found => hoistObject (.timer handle.name) found
  | const (.entity handle), found => hoistObject (.entity handle.id) found
  | const value, found => (const value, found)
  | var name, found => (var name, found)
  | member inner field, found =>
    let (inner, found) := hoistWith inner found
    (member inner field, found)
  | unary op inner, found =>
    let (inner, found) := hoistWith inner found
    (unary op inner, found)
  | binary op left right, found =>
    let (left, found) := hoistWith left found
    let (right, found) := hoistWith right found
    (binary op left right, found)
  | call func args, found =>
    let (args, found) := hoistList args found
    (call func args, found)
  | branch cond yes no, found =>
    let (cond, found) := hoistWith cond found
    let (yes, found) := hoistWith yes found
    let (no, found) := hoistWith no found
    (branch cond yes no, found)
  | bind name value body, found =>
    let (value, found) := hoistWith value found
    let (body, found) := hoistWith body found
    (bind name value body, found)

/-- Replaces the objects of a list of trees. -/
def hoistList : List Expr → List Hoisted → List Expr × List Hoisted
  | [], found => ([], found)
  | e :: es, found =>
    let (e, found) := hoistWith e found
    let (es, found) := hoistList es found
    (e :: es, found)

end

/-- A tree with variables in the place of objects, and the lookups of the variables. -/
def hoist (e : Expr) : Expr × List Hoisted := hoistWith e []

end Expr

end Barrage
