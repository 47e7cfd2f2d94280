import Barrage.Expr.Parser

/-!
# The serving language

Baked expressions are kept as chunks of text and run by a small language of functions. A term is a
literal, a name, an operator, a call, a choice or a block; a block and the branches of a choice hold
statements, and have the value of the last one. The unit value stands for a binding that was not
evaluated. A function can also be called on an object, which it knows as `this`.

## Main definitions

* `Term`, `Statement`: expressions and statements
* `Definition`: functions
* `Chunk`: the functions of a text, and its statements outside of them
-/

namespace Barrage

mutual

/-- Expressions of the serving language. A sign before anything but a number calls the function that the
sign names. -/
inductive Term where
  | unit
  | bool (b : Bool)
  | int (n : Int64)
  | float (x : Float)
  | text (s : String)
  | name (x : String)
  | not (inner : Term)
  | binary (op : Operator) (left right : Term)
  | call (function : String) (args : List Term)
  /-- Calls a function on an object. -/
  | send (object : Term) (function : String) (args : List Term)
  /-- Names a part of an object; nothing that a chunk can hold has parts. -/
  | part (object : Term) (field : String)
  | choice (cond : Term) (yes no : List Statement)
  | block (body : List Statement)

/-- Statements of the serving language. -/
inductive Statement where
  /-- Binds a name for the statements after it. -/
  | bind (name : String) (value : Term)
  /-- Ends the function with a value. -/
  | give (value : Term)
  /-- Evaluates a term. -/
  | eval (value : Term)

end

namespace Term

/-- Whether a term is a literal. -/
def isConstant : Term → Bool
  | unit | bool _ | int _ | float _ | text _ => true
  | _ => false

/-- Whether a term can be a truth value: a literal of another type cannot. -/
def mayBeTruth : Term → Bool
  | bool _ => true
  | t => !t.isConstant

end Term

namespace Statement

/-- The statement that does nothing and has no value. -/
def nothing : Statement := .eval (.block [])

/-- Whether a statement is the one that does nothing. -/
def isNothing : Statement → Bool
  | eval (.block []) => true
  | _ => false

end Statement

/-- A function: its parameters and its body. -/
structure Definition where
  name : String
  params : List String
  body : List Statement

/-- The functions of a text, and its statements outside of them, which run before each call. -/
structure Chunk where
  definitions : List Definition
  main : List Statement

namespace Chunk

/-- The function with a name that takes a number of arguments. -/
def find? (chunk : Chunk) (name : String) (count : Nat) : Option Definition :=
  chunk.definitions.find? fun f => f.name == name && f.params.length == count

/-- Whether some function has a name. -/
def defines (chunk : Chunk) (name : String) : Bool := chunk.definitions.any (·.name == name)

end Chunk

end Barrage
