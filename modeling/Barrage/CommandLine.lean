import Barrage.Config

/-!
# The command line

Arguments come in pairs of a flag and a value. A flag may be given again, and the last value counts.

## Main definitions

* `CommandLine`: what the arguments say
* `CommandLine.parse`: reads arguments, or says what is wrong with them
-/

namespace Barrage

/-- What the arguments of the program say. -/
structure CommandLine where
  config : Option String := none
  overrides : Overrides := {}
deriving DecidableEq, Repr

namespace CommandLine

/-- The configuration file of a run. -/
def configPath (c : CommandLine) : String := c.config.getD Settings.defaultPath

/-- What switches a setting on. -/
def onWords : List String := ["1", "true", "on", "yes"]

/-- What switches a setting off. -/
def offWords : List String := ["0", "false", "off", "no"]

/-- Reads a switch, in any case. -/
def parseSwitch (flag value : String) : Except String Bool :=
  let word := Text.lower value
  if onWords.contains word then .ok true
  else if offWords.contains word then .ok false
  else .error ("Invalid " ++ flag ++ " value '" ++ word ++ "'. Use on/off or true/false.")

/-- Takes the value of a flag whose name follows two dashes. -/
def take (c : CommandLine) (name value : String) : Except String CommandLine :=
  match name with
  | "config" => .ok { c with config := some value }
  | "mode" => do
    let mode ← BuildMode.ofText value
    .ok { c with overrides := { c.overrides with mode := some mode } }
  | "scripts" => .ok { c with overrides := { c.overrides with scriptsDir := some value } }
  | "artifacts" | "out" => .ok { c with overrides := { c.overrides with artifactsDir := some value } }
  | "phase-buffer" => do
    let switch ← parseSwitch name value
    .ok { c with overrides := { c.overrides with phaseBuffer := some switch } }
  | _ =>
    .error ("Unknown flag '--" ++ name ++
      "'. Supported flags: --config, --mode, --scripts, --artifacts, --phase-buffer.")

/-- Reads arguments after some that were read before. -/
def parseFrom (c : CommandLine) : List String → Except String CommandLine
  | [] => .ok c
  | flag :: rest =>
    match Text.strip? ['-', '-'] flag.toList, rest with
    | none, _ =>
      .error ("Unexpected argument '" ++ flag ++ "'. Flags take the form --name value.")
    | some _, [] => .error ("Expected a value after '" ++ flag ++ "'")
    | some name, value :: rest => do
      let c ← c.take (String.ofList name) value
      parseFrom c rest

/-- Reads arguments. -/
def parse (args : List String) : Except String CommandLine := parseFrom {} args

end CommandLine

end Barrage
