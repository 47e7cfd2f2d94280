import Barrage.Pattern.Tree

/-!
# Pattern documents

A pattern document lists the properties of a pattern and its phases; the trees of a phase are records
told apart by the field `type`. A node is read as a whole before its kind is known, so all of it has to be
readable, even fields that its kind does not have.

A node is an object with its tag at any place, or an array that starts with the tag and goes on with the
fields of the kind in their order. Below another node, a kind may also be given by its number.

## Main definitions

* `NodeKind`: the kinds of nodes that documents can hold
* `Node.ofJson`: reads a node
* `PhaseDocument`, `PatternDocument`: what documents hold
* `PatternDocument.parse?`: reads a document
-/

namespace Barrage

/-- Kinds of nodes in documents. -/
inductive NodeKind where
  | action | sequence | «end» | finish | wait | waitUntil | emit | shiftPhase
deriving DecidableEq, Repr

namespace NodeKind

/-- The tag of a kind. -/
def tag : NodeKind → String
  | action => "action"
  | sequence => "saction"
  | «end» => "end"
  | finish => "finish"
  | wait => "wait"
  | waitUntil => "wait_until"
  | emit => "emit"
  | shiftPhase => "shift_phase"

/-- All kinds in the order of their numbers. -/
def all : List NodeKind := [action, sequence, «end», finish, wait, waitUntil, emit, shiftPhase]

/-- The fields of a kind in their order. -/
def fields : NodeKind → List String
  | action => ["wait", "blocking", "children"]
  | sequence => ["wait", "children"]
  | «end» => ["children"]
  | finish => ["child"]
  | wait | waitUntil => ["expr"]
  | emit => ["label", "expr"]
  | shiftPhase => []

/-- The kind that a tag names; below another node the tag may be a number. -/
def ofTag? (nested : Bool) : Json → Option NodeKind
  | .text tag => do
    let tag ← tag
    all.find? (·.tag == tag)
  | .number n =>
    match n.value? with
    | some (.word w) => if nested then all[w]? else none
    | _ => none
  | _ => none

end NodeKind

namespace Node

open Json

/-- The kind and the fields of a node whose parts are all readable, and the depth that remains. -/
def fieldsOf? (nested : Bool) : Reader (NodeKind × Nat × List (Option Json))
  | depth, .object fields => do
    let [some tag] ← pick? ["type"] fields | none
    let kind ← NodeKind.ofTag? nested tag
    some (kind, ← enter? depth, ← pick? kind.fields fields)
  | depth, .array (tag :: items) => do
    let kind ← NodeKind.ofTag? nested tag
    some (kind, ← enter? depth, ← spread? kind.fields items)
  | _, _ => none

/-- Reads the fields of a node of some kind, given how nodes below it are read. -/
def ofFields? (child : Reader (Node String)) (depth : Nat) :
    NodeKind → List (Option Json) → Option (Node String)
  | .action, [wait, blocking, children] => do
    some (.action (← field readFloat 0.0 depth wait) (← field readBool true depth blocking)
      (← field (readList child) [] depth children))
  | .sequence, [wait, children] => do
    some (.sequence (← field readFloat 0.0 depth wait) (← field (readList child) [] depth children))
  | .end, [children] => do
    some (.endBlock 0.0 true (← field (readList child) [] depth children))
  | .finish, [node] => do some (.finish (← required child depth node))
  | .wait, [expr] => do some (.leaf (.wait (← required readText depth expr)))
  | .waitUntil, [expr] => do some (.leaf (.waitUntil (← required readText depth expr)))
  | .emit, [label, expr] => do
    some (.leaf (.emit (← required readText depth label) (← required readText depth expr)))
  | .shiftPhase, [] => some (.leaf .shiftPhase)
  | _, _ => none

/-- Reads a node with at most so many levels of nodes. -/
def ofJsonWithin (nested : Bool) : (levels : Nat) → Reader (Node String)
  | 0 => fun _ _ => none
  | levels + 1 => fun depth json => do
    let (kind, depth, fields) ← fieldsOf? nested depth json
    ofFields? (ofJsonWithin true levels) depth kind fields

/-- Reads a node. -/
def ofJson : Reader (Node String) := fun depth json =>
  if wellFormed depth json then ofJsonWithin false depth depth json else none

end Node

/-- A phase as a document holds it. -/
structure PhaseDocument where
  props : PhaseProps
  children : List (Node String)

/-- A pattern as a document holds it. -/
structure PatternDocument where
  props : PatternProps
  phases : List PhaseDocument

open Json in
/-- Reads a phase. -/
def PhaseDocument.ofJson : Reader PhaseDocument := fun depth json => do
  match ← record? ["props", "children"] depth json with
  | (depth, [props, children]) =>
    some ⟨← field PhaseProps.ofJson {} depth props, ← field (readList Node.ofJson) [] depth children⟩
  | _ => none

open Json in
/-- Reads a pattern. -/
def PatternDocument.ofJson : Reader PatternDocument := fun depth json => do
  match ← record? ["pattern", "phases"] depth json with
  | (depth, [props, phases]) =>
    some ⟨← field PatternProps.ofJson {} depth props,
      ← field (readList PhaseDocument.ofJson) [] depth phases⟩
  | _ => none

/-- Reads a pattern document. -/
def PatternDocument.parse? (text : String) : Option PatternDocument :=
  Json.readDocument? PatternDocument.ofJson text

end Barrage
