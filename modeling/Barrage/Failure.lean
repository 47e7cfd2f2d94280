import Barrage.Bake.Compile
import Barrage.Machine.Error

/-!
# Explained failures

Loading and running scripts can fail deep inside. A failure keeps the cause and what was being done, the
outermost first, so that a user sees the whole way down and the program can still ask what the cause was.

## Main definitions

* `Cause`, `Failure`: the entries of an explanation, and the explanation
* `Failure.within`: says what was being done
* `Failure.isDesync`: whether artifacts no longer fit the scripts
-/

namespace Barrage

/-- One entry of an explanation. -/
inductive Cause where
  /-- What was being done, or what is wrong with a setting. -/
  | note (text : String)
  /-- A document that could not be read. -/
  | document
  | os (e : OsError)
  | compile (e : CompileError)
  | bake (e : BakeError)
  | machine (e : MachineError)

namespace Cause

/-- The text of an entry. -/
def message : Cause → String
  | note text => text
  | document => "malformed document"
  | os e => e.message
  | compile e => e.message
  | bake e => e.message
  | machine e => e.message

/-- Whether an entry says that artifacts no longer fit the scripts. -/
def isDesync : Cause → Bool
  | compile e => e.isDesync
  | bake e => e.isDesync
  | _ => false

end Cause

/-- A failure with its explanation, the outermost entry first. -/
structure Failure where
  causes : List Cause

namespace Failure

/-- A failure that needs no further explanation. -/
def plain (text : String) : Failure := ⟨[.note text]⟩

/-- A failed file operation. -/
def ofOs (e : OsError) : Failure := ⟨[.os e]⟩

/-- What lies below an error of baking. -/
def belowBake : BakeError → List Cause
  | .io _ cause => [.os cause]
  | .registry _ => [.document]
  | _ => []

/-- A failure of baking. -/
def ofBake (e : BakeError) : Failure := ⟨.bake e :: belowBake e⟩

/-- A failure to compile. -/
def ofCompile (e : CompileError) : Failure :=
  match e with
  | .bake cause => ⟨.compile e :: belowBake cause⟩
  | _ => ⟨[.compile e]⟩

/-- A failure of a machine. -/
def ofMachine (e : MachineError) : Failure := ⟨[.machine e]⟩

/-- Says what was being done. -/
def within (text : String) (f : Failure) : Failure := ⟨.note text :: f.causes⟩

/-- Whether artifacts no longer fit the scripts. -/
def isDesync (f : Failure) : Bool := f.causes.any Cause.isDesync

/-- The explanation in one line. -/
def message (f : Failure) : String := ": ".intercalate (f.causes.map Cause.message)

end Failure

end Barrage
