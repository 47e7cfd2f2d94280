import Barrage.Bake.Identity
import Barrage.Text.Class

/-!
# Recording

While a source is open for recording, the printed body of every expression compiled for it is kept. The
units of a source are named by its id and their place in the order of recording, which is what serving
relies on.

## Main definitions

* `RecordedUnit`, `Recording`: a printed unit, and the units of one source
* `Recording.add`: appends a unit
* `Batch`, `Recording.export?`: what a source contributes to the artifacts
-/

namespace Barrage

/-- A printed unit. -/
structure RecordedUnit where
  name : String
  params : List Param
  signature : Signature
  body : String
deriving DecidableEq, Repr

/-- Name and signature of an exported unit. -/
structure TypedRef where
  name : String
  signature : Signature
deriving DecidableEq, Repr

/-- What one source contributes to the artifacts: function texts, and their names and signatures. -/
structure Batch where
  file : FileId
  definitions : List String
  references : List TypedRef
deriving DecidableEq, Repr

/-- The function that holds a unit, under a comment with its signature. -/
def RecordedUnit.definition (unit : RecordedUnit) : String :=
  let params := ", ".intercalate (unit.params.map (·.name))
  let lines := (Text.lines unit.body).map fun line => "    " ++ line ++ "\n"
  "// " ++ unit.signature.text ++ "\nfn " ++ unit.name ++ "(" ++ params ++ ") \x7b\n" ++
    String.join lines ++ "\x7d"

/-- The units recorded for one source. A suppressed recording exports nothing. -/
structure Recording where
  file : FileId
  units : List RecordedUnit := []
  suppressed : Bool := false
deriving DecidableEq, Repr

namespace Recording

/-- The name of the unit at a place. -/
def unitName (file : FileId) (index : Nat) : String := s!"{file.text}_{index}"

/-- Appends a unit and gives it the next name. -/
def add (r : Recording) (body : String) (params : List Param) (returns : ValueType) :
    RecordedUnit × Recording :=
  let unit : RecordedUnit :=
    ⟨unitName r.file r.units.length, params, Signature.of params returns, body⟩
  (unit, { r with units := r.units ++ [unit] })

/-- The batch of a recording, unless it is suppressed or empty. -/
def export? (r : Recording) : Option Batch :=
  if r.suppressed || r.units.isEmpty then none
  else some ⟨r.file, r.units.map (·.definition), r.units.map fun u => ⟨u.name, u.signature⟩⟩

end Recording

end Barrage
