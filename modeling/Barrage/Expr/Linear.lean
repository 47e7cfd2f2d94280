import Barrage.Expr.Hoist

/-!
# Linear form

A printed unit is a list of bindings followed by one returned expression. Linearizing first gives every
binding of a tree a name of its own, and then lifts the bindings to the front. A binding that stands
under a choice, or behind an operand that may decide a conjunction or disjunction, keeps the conditions
that lead to it: it is evaluated only if they hold, and so exactly when the tree would evaluate it.

The conditions refer to earlier results. A variable or constant can be repeated as it is; any other
condition gets a name, but is bound to it only if some lifted binding needs it.

## Main definitions

* `Binding`, `Linear`: guarded bindings, and the linear form
* `Expr.rename`: a tree in which no two bindings share a name
* `Expr.lift`: the bindings of a tree and what is left of it
* `Expr.linearize`: the linear form of a tree
-/

namespace Barrage

/-- A binding at the front of a unit. If it has a condition, it is evaluated only if that holds. -/
structure Binding where
  name : String
  guard : Option Expr
  value : Expr
deriving BEq

/-- A unit without nested bindings: lookups, bindings, and the returned expression. -/
structure Linear where
  hoisted : List Hoisted
  bindings : List Binding
  result : Expr
deriving BEq

namespace Expr

mutual

/-- Gives the bindings of a tree numbered names, from the number after `count` on. The list holds the
names in scope with their new names, the innermost first. -/
def rename (names : List (String × String)) : Expr → (count : Nat) → Expr × Nat
  | const value, count => (const value, count)
  | var name, count => (var ((names.lookup name).getD name), count)
  | member inner field, count =>
    let (inner, count) := rename names inner count
    (member inner field, count)
  | unary op inner, count =>
    let (inner, count) := rename names inner count
    (unary op inner, count)
  | binary op left right, count =>
    let (left, count) := rename names left count
    let (right, count) := rename names right count
    (binary op left right, count)
  | call func args, count =>
    let (args, count) := renameList names args count
    (call func args, count)
  | branch cond yes no, count =>
    let (cond, count) := rename names cond count
    let (yes, count) := rename names yes count
    let (no, count) := rename names no count
    (branch cond yes no, count)
  | bind name value body, count =>
    let (value, count) := rename names value count
    let fresh := s!"{name}__l{count}"
    let (body, count) := rename ((name, fresh) :: names) body (count + 1)
    (bind fresh value body, count)

/-- Renames the bindings of a list of trees, from left to right. -/
def renameList (names : List (String × String)) : List Expr → (count : Nat) → List Expr × Nat
  | [], count => ([], count)
  | e :: es, count =>
    let (e, count) := rename names e count
    let (es, count) := renameList names es count
    (e :: es, count)

end

/-- A list of conditions as one. -/
def conjunction : List Expr → Option Expr
  | [] => none
  | [single] => some single
  | many => some (call .and many)

/-- The opposite of a condition. -/
def negation (e : Expr) : Expr := unary .not e

/-- A condition in a form that can be repeated, and the name it has to be bound to if it is not a
variable or constant. The number of names made so far is counted on. -/
def atom (e : Expr) (count : Nat) : Expr × Option String × Nat :=
  match e with
  | var _ | const _ => (e, none, count)
  | _ =>
    let name := s!"guard__g{count}"
    (var name, some name, count + 1)

/-- A binding under the conditions that lead to it. -/
def guarded (guard : List Expr) (name : String) (value : Expr) : Binding :=
  ⟨name, conjunction guard, value⟩

/-- An operand of a conjunction or disjunction after lifting: the conditions it is evaluated under, its
value, the form in which later conditions repeat it, and the bindings lifted out of it. -/
structure Operand where
  guard : List Expr
  value : Expr
  atom : Expr
  name : Option String
  lifted : List Binding

namespace Operand

/-- The binding that gives an operand its name. -/
def naming (o : Operand) : List Binding :=
  match o.name with
  | some name => [guarded o.guard name o.value]
  | none => []

/-- The bindings of the operands in order, and the operands that are left. An operand is named if a
binding behind it needs it as a condition. -/
def settle : List Operand → List Binding × List Expr
  | [] => ([], [])
  | o :: rest =>
    let (bindings, args) := settle rest
    if rest.any fun later => !later.lifted.isEmpty then
      (o.lifted ++ o.naming ++ bindings, o.atom :: args)
    else (o.lifted ++ bindings, o.value :: args)

end Operand

/-- Whether a function decides by its first false or its first true operand. -/
def shortCircuit? : Func → Option Bool
  | .and => some false
  | .or => some true
  | _ => none

mutual

/-- Lifts the bindings out of a tree that is evaluated under some conditions. -/
def lift (guard : List Expr) : Expr → (count : Nat) → Expr × List Binding × Nat
  | const value, count => (const value, [], count)
  | var name, count => (var name, [], count)
  | member inner field, count =>
    let (inner, bindings, count) := lift guard inner count
    (member inner field, bindings, count)
  | unary op inner, count =>
    let (inner, bindings, count) := lift guard inner count
    (unary op inner, bindings, count)
  | binary op left right, count =>
    let (left, before, count) := lift guard left count
    let (right, after, count) := lift guard right count
    (binary op left right, before ++ after, count)
  | call func args, count =>
    match shortCircuit? func with
    | some short =>
      let (operands, count) := liftOperands short guard args count
      let (bindings, args) := Operand.settle operands
      (call func args, bindings, count)
    | none =>
      let (args, bindings, count) := liftList guard args count
      (call func args, bindings, count)
  | branch cond yes no, count =>
    let (cond, before, count) := lift guard cond count
    let (test, name, count) := atom cond count
    let (yes, ifTrue, count) := lift (guard ++ [test]) yes count
    let (no, ifFalse, count) := lift (guard ++ [negation test]) no count
    if ifTrue.isEmpty && ifFalse.isEmpty then (branch cond yes no, before, count)
    else
      let naming := match name with
        | some name => [guarded guard name cond]
        | none => []
      (branch test yes no, before ++ naming ++ ifTrue ++ ifFalse, count)
  | bind name value body, count =>
    let (value, before, count) := lift guard value count
    let (body, after, count) := lift guard body count
    (body, before ++ guarded guard name value :: after, count)

/-- Lifts the bindings out of a list of trees, from left to right. -/
def liftList (guard : List Expr) : List Expr → (count : Nat) → List Expr × List Binding × Nat
  | [], count => ([], [], count)
  | e :: es, count =>
    let (e, before, count) := lift guard e count
    let (es, after, count) := liftList guard es count
    (e :: es, before ++ after, count)

/-- Lifts the bindings out of operands that are evaluated until one decides. -/
def liftOperands (short : Bool) (guard : List Expr) : List Expr → (count : Nat) → List Operand × Nat
  | [], count => ([], count)
  | e :: es, count =>
    let (value, lifted, count) := lift guard e count
    let (test, name, count) := atom value count
    let goesOn := if short then negation test else test
    let (operands, count) := liftOperands short (guard ++ [goesOn]) es count
    (⟨guard, value, test, name, lifted⟩ :: operands, count)

end

/-- The linear form of a tree whose lookups have been hoisted. -/
def linearize (e : Expr) (hoisted : List Hoisted) : Linear :=
  let (result, bindings, _) := lift [] (rename [] e 0).1 0
  ⟨hoisted, bindings, result⟩

end Expr

end Barrage
