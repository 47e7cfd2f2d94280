import Barrage.Chunk.Datum
import Barrage.Chunk.Reader

/-!
# Simplifying chunks

A chunk is simplified once, when it is loaded. Operators on literals are computed, a literal beside `&&`,
`||` or in a condition decides what it can, a choice that holds nothing but a choice asks for both
conditions at once, and statements that do nothing but have a value which is not used are left out. What is
left out is not run, so a fault in it does not arise: a name that nothing binds may stand where its value
is dropped, and the operand that remains of a conjunction or disjunction need not be a truth value.

Literals and names do nothing. Conjunctions and disjunctions do: their operands have to be truth values.

## Main definitions

* `Statement.effects`, `Statement.results`: what is left of a body whose value is not used, or is used
* `Term.simplify`: the simplified form of a term
* `Chunk.load?`: the simplified functions of a text
-/

namespace Barrage

namespace Datum

/-- The literal that denotes a datum, if one does. -/
def literal? : Datum → Option Term
  | unit => some .unit
  | text s => some (.text s)
  | value (.bool b) => some (.bool b)
  | value (.int n) => some (.int n)
  | value (.float x) => some (.float x)
  | _ => none

end Datum

namespace Statement

/-- Whether a statement does nothing, so that it can be left out where its value is not used. Only a
function that is called on an object knows `this`. -/
def isPure : Statement → Bool
  | eval (.name x) => x != "this"
  | eval (.block []) => true
  | eval t => t.isConstant
  | _ => false

/-- Whether a statement binds a name. -/
def isBind : Statement → Bool
  | bind _ _ => true
  | _ => false

/-- Whether a statement does nothing for any statement outside of its block, and has no value: it binds a
name to a literal, or it is empty. -/
def isIdle : Statement → Bool
  | bind _ value => value.isConstant
  | eval (.block []) => true
  | _ => false

/-- Whether a statement is nothing but a literal. -/
def isConstant : Statement → Bool
  | eval t => t.isConstant
  | _ => false

/-- What is left of a body whose value is not used. -/
def effects : List Statement → List Statement
  | [] => []
  | s :: rest =>
    match effects rest with
    | [] => if s.isPure || s.isIdle then [] else [s]
    | kept => if s.isPure then kept else s :: kept

/-- What is left of a body whose value is used. The value of its last statement stays, and so does a
binding unless a literal or nothing follows it. -/
def results : List Statement → List Statement
  | [] => []
  | [s] => if s.isIdle then [] else [s]
  | s :: rest =>
    match results rest with
    | [] => if s.isPure || s.isIdle then [] else if s.isBind then [s] else [s, nothing]
    | [last] => if s.isPure || (s.isIdle && last.isConstant) then [last] else [s, last]
    | kept => if s.isPure then kept else s :: kept

/-- What is left of a body. -/
def kept (used : Bool) (body : List Statement) : List Statement :=
  if used then results body else effects body

/-- Statements that stand for a block: its own, unless it binds names. -/
def opened (body : List Statement) : List Statement :=
  if body.isEmpty then [nothing]
  else if body.any isBind then [.eval (.block body)]
  else body

end Statement

namespace Term

/-- The value of a literal, if the term is one. -/
def literal? : Term → Option Datum
  | unit => some .unit
  | text s => some (.text s)
  | bool b => some (.value (.bool b))
  | int n => some (.value (.int n))
  | float x => some (.value (.float x))
  | _ => none

/-- An operator with simplified operands. -/
def ofOperator (op : Operator) (left right : Term) : Term :=
  let computed := do
    let a ← left.literal?
    let b ← right.literal?
    (← Datum.operate? op a b).literal?
  computed.getD (binary op left right)

/-- A call with simplified arguments. What type a literal has is known. -/
def ofCall (function : String) (args : List Term) : Term :=
  match function, args.mapM literal? with
  | "type_of", some [d] => text d.innerTypeName
  | "is_shared", some [_] => bool false
  | _, _ => call function args

/-- A conjunction of simplified operands. -/
def conjunction : Term → Term → Term
  | bool true, right => right
  | bool false, _ => bool false
  | left, bool true => left
  | left, bool false => if left.isConstant then bool false else binary (.func .and) left (bool false)
  | left, right => binary (.func .and) left right

/-- A disjunction of simplified operands. -/
def disjunction : Term → Term → Term
  | bool false, right => right
  | bool true, _ => bool true
  | left, bool false => left
  | left, bool true => if left.isConstant then bool true else binary (.func .or) left (bool true)
  | left, right => binary (.func .or) left right

/-- A block of simplified statements as a term. -/
def ofStatements : List Statement → Term
  | [] => unit
  | [.eval t] => t
  | body => block body

end Term

namespace Statement

/-- A choice with simplified parts. Without any branches only its condition is evaluated, which need not be
a truth value then; `alone` is what is left of the condition without its value. A choice that holds nothing
but a choice asks for both conditions at once. -/
def ofChoice (cond : Term) (alone yes no : List Statement) : List Statement :=
  match cond, yes, no with
  | .bool true, _, _ => opened yes
  | .bool false, _, _ => opened no
  | _, [], [] => alone ++ [nothing]
  | _, [.eval (.choice inner yes [])], [] => [.eval (.choice (cond.conjunction inner) yes [])]
  | _, _, _ => [.eval (.choice cond yes no)]

mutual

/-- What is left of a simplified term whose value is not used. -/
def withoutValue : Term → List Statement
  | .block body => opened (discarded body)
  | .choice cond yes no => ofChoice cond (withoutValue cond) (discarded yes) (discarded no)
  | t => [.eval t]

/-- What is left of a simplified body whose value is not used. -/
def discarded : List Statement → List Statement
  | [] => []
  | [.eval t] => effects (withoutValue t)
  | s :: rest => effects (s :: discarded rest)

end

end Statement

namespace Term

mutual

/-- The simplified form of a term. -/
def simplify : Term → Term
  | not inner => not inner.simplify
  | binary (.func .and) left right => conjunction left.simplify right.simplify
  | binary (.func .or) left right => disjunction left.simplify right.simplify
  | binary op left right => ofOperator op left.simplify right.simplify
  | call function args => ofCall function (simplifyAll args)
  | send object function args => send object.simplify function (simplifyAll args)
  | part object field => part object.simplify field
  | choice cond yes no =>
    let cond := cond.simplify
    ofStatements (Statement.results (Statement.ofChoice cond (Statement.withoutValue cond)
      (Statement.results (simplifyBody true yes)) (Statement.results (simplifyBody true no))))
  | block body => ofStatements (Statement.results (simplifyBody true body))
  | t => t

/-- The simplified forms of terms. -/
def simplifyAll : List Term → List Term
  | [] => []
  | t :: ts => t.simplify :: simplifyAll ts

/-- The simplified forms of statements, with blocks opened. Only the value of the last one that does
something may be used. -/
def simplifyBody (used : Bool) : List Statement → List Statement
  | [] => []
  | s :: rest =>
    if s.isNothing then simplifyBody used rest
    else simplifyStatement (used && rest.all (·.isNothing)) s ++ simplifyBody used rest

/-- What a statement is simplified to. A choice within a choice, and neither with a second branch, is
joined with it before what it holds is simplified. -/
def simplifyStatement (used : Bool) : Statement → List Statement
  | .bind x value => [.bind x value.simplify]
  | .give value => [.give value.simplify]
  | .eval (.choice cond [.eval (.choice inner yes [])] []) =>
    let cond := conjunction cond.simplify inner.simplify
    Statement.ofChoice cond (Statement.withoutValue cond) (Statement.kept used (simplifyBody used yes)) []
  | .eval (.choice cond yes no) =>
    let cond := cond.simplify
    Statement.ofChoice cond (Statement.withoutValue cond) (Statement.kept used (simplifyBody used yes))
      (Statement.kept used (simplifyBody used no))
  | .eval (.block body) => Statement.opened (Statement.kept used (simplifyBody used body))
  | .eval value =>
    let value := value.simplify
    if used then [.eval value] else Statement.withoutValue value

end

end Term

/-- The simplified form of a function. -/
def Definition.simplify (f : Definition) : Definition :=
  { f with body := Statement.results (Term.simplifyBody true f.body) }

namespace Chunk

/-- The simplified form of a chunk. -/
def simplify (chunk : Chunk) : Chunk where
  definitions := chunk.definitions.map Definition.simplify
  main := Statement.results (Term.simplifyBody true chunk.main)

/-- The simplified functions and statements of a text, unless it is no chunk. -/
def load? (text : String) : Option Chunk := (parse? text).map simplify

end Chunk

end Barrage
