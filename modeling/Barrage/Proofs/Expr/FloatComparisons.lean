import Barrage.Chunk.Datum
import Barrage.Proofs.Expr.FittingEnvironments

/-!
# Comparisons of floats

The two evaluators differ in how they compare two floats and in nothing else. Whether a well-typed tree
compares two floats can be read off its types, and joining nested calls does not change the answer. A tree
that compares none has the same value whatever comparisons are used.

## Main definitions

* `Expr.comparesFloats` — whether a tree compares two floats

## Main results

* `Expr.comparesFloats_flatten` — the flat tree compares floats if the tree does
* `Expr.eval_order` — trees that compare no floats
-/

namespace Barrage

open Barrage.Expr

/-- An operator that is not asked to compare two floats does the same with all comparisons. -/
theorem Value.binary_order {order order' : FloatOrder} {op : BinOp} {a b : Value}
    (h : Datum.isComparison op = true → a.type ≠ .float) : binary order op a b = binary order' op a b := by
  by_cases hop : Datum.isComparison op = true
  · have hfloat := h hop
    cases a with
    | float x => exact absurd rfl hfloat
    | _ => cases op <;> cases b <;> rfl
  · cases op with
    | sub | div | rem => cases a <;> cases b <;> rfl
    | _ => exact absurd rfl hop

namespace Expr

/-- Whether an operator compares floats, given the type of its first operand. -/
def comparesFloatsAt (op : BinOp) : Except TypeError ValueType → Bool
  | .ok .float => Datum.isComparison op
  | _ => false

mutual

/-- Whether a tree compares two floats, in a scope that gives the types of its names. -/
def comparesFloats (scope : Scope) : Expr → Bool
  | const _ => false
  | var _ => false
  | member inner _ => comparesFloats scope inner
  | unary _ inner => comparesFloats scope inner
  | binary op left right =>
    comparesFloatsAt op (inferIn scope left) || comparesFloats scope left || comparesFloats scope right
  | call _ args => comparesFloatsList scope args
  | branch cond yes no => comparesFloats scope cond || comparesFloats scope yes || comparesFloats scope no
  | bind name value body =>
    comparesFloats scope value ||
      match inferIn scope value with
      | .ok ty => comparesFloats ((name, ty) :: scope) body
      | .error _ => false

/-- Whether one of some trees compares two floats. -/
def comparesFloatsList (scope : Scope) : List Expr → Bool
  | [] => false
  | e :: es => comparesFloats scope e || comparesFloatsList scope es

end

variable {scope : Scope} {ty : ValueType} {args : List Expr}

theorem comparesFloatsList_eq_any (scope : Scope) (es : List Expr) :
    comparesFloatsList scope es = es.any (comparesFloats scope) := by
  induction es with
  | nil => rfl
  | cons e es ih => rw [comparesFloatsList, ih, List.any_cons]

/-! ### Joining nested calls -/

theorem any_splice (func : Func) (scope : Scope) (e : Expr) :
    (splice func e).any (comparesFloats scope) = comparesFloats scope e := by
  cases e with
  | call inner args =>
    rw [splice]
    split
    · rw [comparesFloats, comparesFloatsList_eq_any]
    · simp
  | _ => simp [splice]

/-- The flat form of a well-typed tree compares floats if the tree does. -/
theorem comparesFloats_flatten {e : Expr} (h : inferIn scope e = .ok ty) :
    comparesFloats scope e.flatten = comparesFloats scope e := by
  induction e using treeInduction generalizing scope ty with
  | const value => rfl
  | var name => rfl
  | member inner field ih =>
    obtain ⟨t, hinner, -⟩ := inferIn_member.1 h
    exact ih hinner
  | unary op inner ih =>
    obtain ⟨t, hinner, -⟩ := inferIn_unary.1 h
    exact ih hinner
  | binary op left right ihl ihr =>
    obtain ⟨l, r, hl, hr, -⟩ := inferIn_binary.1 h
    rw [flatten, comparesFloats, comparesFloats, ihl hl, ihr hr, inferIn_flatten hl, hl]
  | branch cond yes no ihc ihy ihn =>
    obtain ⟨hc, hy, hn⟩ := inferIn_branch.1 h
    rw [flatten, comparesFloats, comparesFloats, ihc hc, ihy hy, ihn hn]
  | bind name value body ihv ihb =>
    obtain ⟨t, hv, hb⟩ := inferIn_bind.1 h
    rw [flatten, comparesFloats, comparesFloats, ihv hv, inferIn_flatten hv, hv]
    simp only [ihb hb]
  | call func args ih =>
    obtain ⟨tys, hargs, -⟩ := inferIn_call.1 h
    rw [flatten, comparesFloats, comparesFloats]
    clear h
    induction hargs with
    | nil => rfl
    | @cons e t es tys he _ ihes =>
      have hrest := ihes fun e' he' => ih e' (by simp [he'])
      rw [comparesFloatsList_eq_any] at hrest
      rw [flattenArgs, comparesFloatsList_eq_any, List.any_append, any_splice, ih e (by simp) he, hrest,
        comparesFloatsList]

/-! ### Evaluation -/

variable {order order' : FloatOrder} {hosts : Hosts} {env : Env}

theorem evalList_order (h : ∀ e ∈ args, eval order hosts env e = eval order' hosts env e) :
    evalList order hosts env args = evalList order' hosts env args := by
  induction args with
  | nil => rfl
  | cons e es ih =>
    obtain ⟨he, hes⟩ := List.forall_mem_cons.1 h
    rw [evalList, evalList, he, ih hes]

theorem evalDeciding_order {short : Bool}
    (h : ∀ e ∈ args, eval order hosts env e = eval order' hosts env e) :
    evalDeciding order hosts env short args = evalDeciding order' hosts env short args := by
  induction args with
  | nil => rfl
  | cons e es ih =>
    obtain ⟨he, hes⟩ := List.forall_mem_cons.1 h
    rw [evalDeciding, evalDeciding, he, ih hes]

/-- A call of which the arguments do not depend on the comparisons. -/
theorem eval_call_order (func : Func)
    (h : ∀ e ∈ args, eval order hosts env e = eval order' hosts env e) :
    eval order hosts env (call func args) = eval order' hosts env (call func args) := by
  cases func with
  | and => rw [eval, eval, evalDeciding_order h]
  | or => rw [eval, eval, evalDeciding_order h]
  | _ =>
    rw [eval, eval, evalList_order h]
    all_goals
      intro hfunc
      cases hfunc

/-- A tree that compares no floats has the same value whatever comparisons of floats are used. -/
theorem eval_order {e : Expr} (h : inferIn scope e = .ok ty) (henv : env.Fits scope)
    (hfloats : comparesFloats scope e = false) : eval order hosts env e = eval order' hosts env e := by
  induction e using treeInduction generalizing scope ty env with
  | const value => rfl
  | var name => rfl
  | member inner field ih =>
    obtain ⟨t, hinner, -⟩ := inferIn_member.1 h
    rw [eval, eval, ih hinner henv hfloats]
  | unary op inner ih =>
    obtain ⟨t, hinner, -⟩ := inferIn_unary.1 h
    rw [eval, eval, ih hinner henv hfloats]
  | binary op left right ihl ihr =>
    obtain ⟨l, r, hl, hr, -⟩ := inferIn_binary.1 h
    rw [comparesFloats, hl, Bool.or_eq_false_iff, Bool.or_eq_false_iff] at hfloats
    obtain ⟨⟨hop, hfl⟩, hfr⟩ := hfloats
    rw [eval, eval, ihl hl henv hfl, ihr hr henv hfr]
    cases hleft : eval order' hosts env left with
    | error err => rfl
    | ok a =>
      cases hright : eval order' hosts env right with
      | error err => rfl
      | ok b =>
        refine Value.binary_order fun hcomparison hfloat => ?_
        obtain rfl : l = .float := (type_of_eval hl henv hleft).symm.trans hfloat
        rw [comparesFloatsAt, hcomparison] at hop
        cases hop
  | branch cond yes no ihc ihy ihn =>
    obtain ⟨hc, hy, hn⟩ := inferIn_branch.1 h
    rw [comparesFloats, Bool.or_eq_false_iff, Bool.or_eq_false_iff] at hfloats
    obtain ⟨⟨hfc, hfy⟩, hfn⟩ := hfloats
    rw [eval, eval, ihc hc henv hfc, ihy hy henv hfy, ihn hn henv hfn]
  | bind name value body ihv ihb =>
    obtain ⟨t, hv, hb⟩ := inferIn_bind.1 h
    rw [comparesFloats, hv, Bool.or_eq_false_iff] at hfloats
    rw [eval, eval, ihv hv henv hfloats.1]
    cases hvalue : eval order' hosts env value with
    | error err => rfl
    | ok v =>
      refine ihb hb ?_ hfloats.2
      intro x w hx
      rw [lookup_cons_ite] at hx ⊢
      split at hx
      · cases hx
        rw [if_pos ‹_›, type_of_eval hv henv hvalue]
      · rw [if_neg ‹_›]
        exact henv x w hx
  | call func args ih =>
    obtain ⟨tys, hargs, -⟩ := inferIn_call.1 h
    rw [comparesFloats, comparesFloatsList_eq_any, List.any_eq_false] at hfloats
    refine eval_call_order func fun e he => ?_
    obtain ⟨t, -, hety⟩ := hargs.exists_of_mem_left he
    exact ih e he hety henv (by simpa using hfloats e he)

end Expr

end Barrage
