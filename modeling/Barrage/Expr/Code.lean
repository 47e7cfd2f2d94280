import Barrage.Expr.Operations
import Barrage.Expr.Typing

/-!
# Compiled expressions

Compiling resolves every variable to a slot of a frame, so that running code looks no names up. The
frame starts with the arguments. A binding cuts the frame back to its own slot and puts its value there;
nothing is removed when its body ends, so values of bindings that are no longer in scope may lie beyond
the slots in use.

## Main definitions

* `Code`, `Expr.compile`: code, and the code of an expression in a scope of names
* `Frame`, `Code.run`: frames, and the run of code over a frame
-/

namespace Barrage

/-- Expressions with slots in the place of names. -/
inductive Code where
  | const (value : Value)
  | slot (index : Nat)
  | member (inner : Code) (field : Member)
  | unary (op : UnOp) (inner : Code)
  | binary (op : BinOp) (left right : Code)
  | call (func : Func) (args : List Code)
  | branch (cond yes no : Code)
  | bind (slot : Nat) (value body : Code)

namespace Expr

/-- The slot of a name among the names in scope, which are listed from the innermost outward and so from
the highest slot down. -/
def slot? (scope : List String) (name : String) : Option Nat :=
  (scope.idxOf? name).map fun back => scope.length - 1 - back

mutual

/-- The code of an expression in a scope. -/
def compile (scope : List String) : Expr → Except TypeError Code
  | const value => .ok (.const value)
  | var name =>
    match slot? scope name with
    | some index => .ok (.slot index)
    | none => .error (.unknownVariable name)
  | member inner field => do
    let inner ← compile scope inner
    .ok (.member inner field)
  | unary op inner => do
    let inner ← compile scope inner
    .ok (.unary op inner)
  | binary op left right => do
    let left ← compile scope left
    let right ← compile scope right
    .ok (.binary op left right)
  | call func args => do
    let args ← compileList scope args
    .ok (.call func args)
  | branch cond yes no => do
    let cond ← compile scope cond
    let yes ← compile scope yes
    let no ← compile scope no
    .ok (.branch cond yes no)
  | bind name value body => do
    let value ← compile scope value
    let body ← compile (name :: scope) body
    .ok (.bind scope.length value body)

/-- The code of a list of expressions. -/
def compileList (scope : List String) : List Expr → Except TypeError (List Code)
  | [] => .ok []
  | e :: es => do
    let code ← compile scope e
    let codes ← compileList scope es
    .ok (code :: codes)

end

end Expr

/-- The values that slots hold, from the lowest slot up. -/
abbrev Frame := List Value

namespace Code

mutual

/-- Runs code over a frame; the frame comes back as the run left it. -/
def run (order : FloatOrder) (hosts : Hosts) : Code → Frame → Except EvalError (Value × Frame)
  | const value, frame => .ok (value, frame)
  | slot index, frame =>
    match frame[index]? with
    | some value => .ok (value, frame)
    | none => .error (.unboundSlot index)
  | member inner field, frame => do
    let (value, frame) ← run order hosts inner frame
    .ok (← value.member hosts field, frame)
  | unary op inner, frame => do
    let (value, frame) ← run order hosts inner frame
    .ok (← Value.unary op value, frame)
  | binary op left right, frame => do
    let (l, frame) ← run order hosts left frame
    let (r, frame) ← run order hosts right frame
    .ok (← Value.binary order op l r, frame)
  | call .and args, frame => do
    let (b, frame) ← runDeciding order hosts false args frame
    .ok (.bool b, frame)
  | call .or args, frame => do
    let (b, frame) ← runDeciding order hosts true args frame
    .ok (.bool b, frame)
  | call func args, frame => do
    let (values, frame) ← runList order hosts args frame
    .ok (← func.apply values, frame)
  | branch cond yes no, frame => do
    let (value, frame) ← run order hosts cond frame
    if ← value.toBool then run order hosts yes frame else run order hosts no frame
  | bind index value body, frame => do
    let (value, frame) ← run order hosts value frame
    run order hosts body (frame.take index ++ [value])

/-- Runs a list of codes, from left to right. -/
def runList (order : FloatOrder) (hosts : Hosts) :
    List Code → Frame → Except EvalError (List Value × Frame)
  | [], frame => .ok ([], frame)
  | code :: codes, frame => do
    let (value, frame) ← run order hosts code frame
    let (values, frame) ← runList order hosts codes frame
    .ok (value :: values, frame)

/-- Runs operands until one equals `short`. -/
def runDeciding (order : FloatOrder) (hosts : Hosts) (short : Bool) :
    List Code → Frame → Except EvalError (Bool × Frame)
  | [], frame => .ok (!short, frame)
  | code :: codes, frame => do
    let (value, frame) ← run order hosts code frame
    if (← value.toBool) = short then .ok (short, frame)
    else runDeciding order hosts short codes frame

end

end Code

end Barrage
