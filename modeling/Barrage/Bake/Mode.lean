import Barrage.Text.Class

/-!
# Build modes

Expressions are compiled in the program itself, or compiled and recorded besides, or replayed from what
an earlier pass recorded.
-/

namespace Barrage

/-- What a pass does with expressions. -/
inductive BuildMode where
  /-- Compiles them. -/
  | direct
  /-- Compiles them and records their printed bodies. -/
  | record
  /-- Replays recorded units in the order of the calls. -/
  | serve
deriving DecidableEq, Repr

namespace BuildMode

/-- Name of a mode. -/
def name : BuildMode → String
  | direct => "direct"
  | record => "record"
  | serve => "serve"

/-- The mode with exactly this name. -/
def ofName? (s : String) : Option BuildMode := [direct, record, serve].find? (·.name == s)

/-- The mode a user names, in any case and with any space around; the error shows the name in lower
case. -/
def ofText (s : String) : Except String BuildMode :=
  let name := Text.lower (Text.trim s)
  match ofName? name with
  | some mode => .ok mode
  | none => .error ("unknown build mode '" ++ name ++ "' (expected direct, record or serve)")

end BuildMode

end Barrage
