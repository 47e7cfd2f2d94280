import Barrage.Expr.Basic

/-!
# Flat calls

A call of an associative function that is an argument of the same function is joined into it, so that a
chain of sums becomes one sum. Trees are flattened from the leaves up, and a flat tree stays as it is.

## Main definitions

* `Expr.splice`: the arguments an argument contributes to a call
* `Expr.flatten`: the flat form of a tree
-/

namespace Barrage.Expr

/-- The arguments that an argument contributes to a call: its own ones if it is a call of the same
associative function, and itself otherwise. -/
def splice (func : Func) : Expr → List Expr
  | call inner args => if inner = func ∧ func.isAssociative then args else [call inner args]
  | e => [e]

mutual

/-- The flat form of a tree. -/
def flatten : Expr → Expr
  | const value => const value
  | var name => var name
  | member inner field => member inner.flatten field
  | unary op inner => unary op inner.flatten
  | binary op left right => binary op left.flatten right.flatten
  | call func args => call func (flattenArgs func args)
  | branch cond yes no => branch cond.flatten yes.flatten no.flatten
  | bind name value body => bind name value.flatten body.flatten

/-- The arguments of a flat call. -/
def flattenArgs (func : Func) : List Expr → List Expr
  | [] => []
  | e :: es => splice func e.flatten ++ flattenArgs func es

end

end Barrage.Expr
