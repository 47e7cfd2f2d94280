import Barrage.Document.Decode

/-!
# Properties of patterns and phases

A pattern is a fight in several phases. Its properties name the boss and the music; those of a phase say
how it may end and what surrounds it. Every property has a default, and every number counts in seconds or
hit points.

## Main definitions

* `PhaseType`, `Boss`, `PatternProps`, `PhaseProps`: the properties
* `PhaseProps.inherit`: phases without a boss take the pattern's
* `PatternProps.ofJson`, `PhaseProps.ofJson`: reads properties out of a document
-/

namespace Barrage

/-- Kinds of phases. -/
inductive PhaseType where
  | nonSpell | spell | timeout | final | dialogue
deriving DecidableEq, Repr

namespace PhaseType

/-- Name of a kind in documents. -/
def name : PhaseType → String
  | nonSpell => "non_spell"
  | spell => "spell"
  | timeout => "timeout"
  | final => "final"
  | dialogue => "dialogue"

/-- All kinds. -/
def all : List PhaseType := [nonSpell, spell, timeout, final, dialogue]

/-- The kind with a name. -/
def ofName? (s : String) : Option PhaseType := all.find? (·.name == s)

/-- Whether phases of a kind cost the boss a life each. -/
def isSpell : PhaseType → Bool
  | spell | timeout | final => true
  | nonSpell | dialogue => false

end PhaseType

/-- Who is fought. -/
structure Boss where
  key : String
  name : String := ""
deriving DecidableEq, Repr

/-- Properties of a pattern. -/
structure PatternProps where
  boss : Option Boss := none
  /-- The track of each phase; phases beyond the list go on with the track before. -/
  bgms : List String := []
deriving DecidableEq, Repr

/-- Properties of a phase. -/
structure PhaseProps where
  title : Option String := none
  type : Option PhaseType := none
  /-- Hit points at the start. Without any, damage cannot end the phase. -/
  hp : Float := 0.0
  /-- Seconds until the phase is cut short, if positive. -/
  timeout : Float := 0.0
  /-- Whether the phase is passed over. -/
  skip : Bool := false
  /-- Whether the phase goes on when its children have finished. -/
  hold : Bool := false
  lenient : Bool := false
  cutin : Bool := false
  autocull : Bool := false
  boss : Option Boss := none
deriving Repr

namespace PhaseProps

/-- A phase without a boss of its own takes the pattern's. -/
def inherit (props : PhaseProps) (pattern : PatternProps) : PhaseProps :=
  { props with boss := props.boss <|> pattern.boss }

/-- Whether the phase costs the boss a life. -/
def isSpell (props : PhaseProps) : Bool := props.type.any PhaseType.isSpell

end PhaseProps

open Json in
/-- Reads a boss. -/
def Boss.ofJson : Reader Boss := fun depth json => do
  match ← record? ["key", "name"] depth json with
  | (depth, [key, name]) => some ⟨← required readText depth key, ← field readText "" depth name⟩
  | _ => none

open Json in
/-- Reads the properties of a pattern. -/
def PatternProps.ofJson : Reader PatternProps := fun depth json => do
  match ← record? ["boss", "bgms"] depth json with
  | (depth, [boss, bgms]) =>
    some ⟨← field (readOptional Boss.ofJson) none depth boss,
      ← field (readList readText) [] depth bgms⟩
  | _ => none

open Json in
/-- Reads the properties of a phase. -/
def PhaseProps.ofJson : Reader PhaseProps := fun depth json => do
  let names := ["title", "phase_type", "hp", "timeout", "skip", "hold", "lenient", "cutin",
    "autocull", "boss"]
  match ← record? names depth json with
  | (depth, [title, type, hp, timeout, skip, hold, lenient, cutin, autocull, boss]) =>
    some {
      title := ← field (readOptional readText) none depth title
      type := ← field (readOptional (readName PhaseType.ofName?)) none depth type
      hp := ← field readFloat 0.0 depth hp
      timeout := ← field readFloat 0.0 depth timeout
      skip := ← field readBool false depth skip
      hold := ← field readBool false depth hold
      lenient := ← field readBool false depth lenient
      cutin := ← field readBool false depth cutin
      autocull := ← field readBool false depth autocull
      boss := ← field (readOptional Boss.ofJson) none depth boss }
  | _ => none

end Barrage
