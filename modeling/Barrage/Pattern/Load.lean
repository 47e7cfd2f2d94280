import Barrage.Failure
import Barrage.Pattern.Document

/-!
# Loading patterns

The expressions of a pattern document are compiled in one source, in the order in which the document
holds them, so that a serving session meets the units in the order of the recording. A document that fails
to load leaves no units behind.

## Main definitions

* `Leaf.params`: what expressions of a pattern may use
* `PatternDocument.compile`: compiles a document in the source that is open
* `BuildM.loadPattern`: loads a document as a source of its own
* `BuildM.loadFile`: loads a file, with its place below a root as its key
-/

namespace Barrage

/-- Expressions of a pattern may use the seconds that have passed and the hit points that are left. -/
def Leaf.params : List Param := [⟨"t", .float⟩, ⟨"hp", .float⟩]

/-- Compiles the expression of a leaf. -/
def compileLeaf (returns : ValueType) (source : String) : BuildM Failure Callable :=
  (BuildM.compileSource source { params := Leaf.params, returns }).adapt fun e =>
    (Failure.ofCompile e).within ("Compiling expression '" ++ source ++ "'")

/-- Compiles a phase. -/
def PhaseDocument.compile (doc : PhaseDocument) : BuildM Failure (Phase Callable) := do
  let children ← Node.compileList compileLeaf doc.children
  MonadExcept.ofExcept ((Phase.ofChildren doc.props children).mapError Failure.ofMachine)

/-- Compiles phases, the first of which has a given place. -/
def PhaseDocument.compileFrom (index : Nat) : List PhaseDocument → BuildM Failure (List (Phase Callable))
  | [] => return []
  | doc :: rest => do
    let phase ← doc.compile.adapt (Failure.within s!"In phase {index}")
    return phase :: (← compileFrom (index + 1) rest)

/-- Compiles a pattern. -/
def PatternDocument.compile (doc : PatternDocument) : BuildM Failure (Pattern Callable) := do
  return Pattern.ofPhases doc.props (← PhaseDocument.compileFrom 0 doc.phases)

namespace BuildM

/-- Loads a pattern document as the source with a path for its key. -/
def loadPattern (key text : String) : BuildM Failure (Pattern Callable) := do
  match PatternDocument.parse? text with
  | none => throw (Failure.within "Parsing pattern document" ⟨[.document]⟩)
  | some doc => within Failure.ofBake .scriptDump (.path key) false doc.compile

/-- Loads a pattern file. Its key is the path below the root, so that the place of the root does not
count. -/
def loadFile (disk : Disk) (root path : String) : BuildM Failure (Pattern Callable) := do
  match disk.readText path with
  | .error e => throw ((Failure.ofOs e).within ("Reading '" ++ path ++ "'"))
  | .ok text =>
    let key := (Path.relativeTo? root path).getD path
    (loadPattern key text).adapt (Failure.within ("Loading pattern '" ++ path ++ "'"))

end BuildM

end Barrage
