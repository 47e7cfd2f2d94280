import Barrage.Proofs.Expr.LinearTypes
import Barrage.Proofs.Expr.TypeSoundness

/-!
# Flat calls keep their values

Joining a call into the one around it moves operands: the inner call is no longer finished before the next
operand of the outer one is evaluated. So the two may fail for different reasons, but a chain that hangs on
the first operand is folded from the left in both forms, operation by operation, and comes to the same value.
A call that is a later operand is another matter, since a sum of floats depends on how it is bracketed, and a
sum of whole numbers may leave its word in one bracketing only. Conjunctions and disjunctions ask the same
operands in the same order wherever they are nested.

## Main definitions

* `Except.SameValue`: two computations with the same value, if they have one
* `Func.isFold`: functions that join their operands from the left
* `Expr.LeftNested`: trees of which chains of such functions hang on first operands

## Main results

* `Expr.eval_flatten`: the flat form of a tree has its values
* `Callable.flatten_keeps_values`: the same for compiled trees
-/

namespace Except

variable {ε α β : Type} {r s t : Except ε α}

/-- Two computations have the same value if they have one. They may fail for different reasons. -/
def SameValue (r s : Except ε α) : Prop := ∀ a, r = ok a ↔ s = ok a

namespace SameValue

theorem refl (r : Except ε α) : SameValue r r := fun _ => Iff.rfl

theorem symm (h : SameValue r s) : SameValue s r := fun a => (h a).symm

theorem trans (hrs : SameValue r s) (hst : SameValue s t) : SameValue r t := fun a => (hrs a).trans (hst a)

theorem bind {f g : α → Except ε β} (h : SameValue r s) (hfg : ∀ a, SameValue (f a) (g a)) :
    SameValue (r >>= f) (s >>= g) := by
  intro b
  rw [bind_eq_ok_iff, bind_eq_ok_iff]
  exact exists_congr fun a => and_congr (h a) (hfg a b)

/-- Two computations that do not depend on each other may be done in either order. -/
theorem comm {γ : Type} (r : Except ε α) (s : Except ε β) (f : α → β → Except ε γ) :
    SameValue (r >>= fun a => s >>= fun b => f a b) (s >>= fun b => r >>= fun a => f a b) := by
  intro c
  simp only [bind_eq_ok_iff]
  constructor
  · rintro ⟨a, ha, b, hb, hc⟩
    exact ⟨b, hb, a, ha, hc⟩
  · rintro ⟨b, hb, a, ha, hc⟩
    exact ⟨a, ha, b, hb, hc⟩

end SameValue

end Except

namespace Barrage

namespace Func

/-- Functions that join their operands from the left, whatever they come to. -/
def isFold : Func → Bool
  | add | mul | min | max => true
  | _ => false

theorem isAssociative_cases {func : Func} (h : func.isAssociative) :
    func.isFold ∨ func = .and ∨ func = .or := by
  cases func <;> first | exact .inl rfl | exact .inr (.inl rfl) | exact .inr (.inr rfl) | cases h

/-- The operation with which a function joins one more operand to those before. -/
def operation : Func → Value → Value → Except EvalError Value
  | add => Value.plus
  | mul => Value.times
  | min => Value.least
  | _ => Value.greatest

theorem apply_fold {func : Func} (h : func.isFold) (first : Value) (rest : List Value) :
    func.apply (first :: rest) = rest.foldlM func.operation first := by
  cases func <;> first | rfl | cases h

/-- Operands of which the first ones are joined before are joined to what these came to. -/
theorem apply_append {func : Func} (h : func.isFold) {values : List Value} (hvalues : values ≠ []) (more : List Value) :
    func.apply (values ++ more) = func.apply values >>= fun value => func.apply (value :: more) := by
  obtain ⟨first, rest, rfl⟩ := List.exists_cons_of_ne_nil hvalues
  rw [List.cons_append, apply_fold h, apply_fold h, List.foldlM_append]
  simp only [apply_fold h]

end Func

namespace Expr

/-- Trees of which chains of folding functions hang on first operands: a call has no call of the same function
as a later operand. -/
inductive LeftNested : Expr → Prop
  | const {value : Value} : LeftNested (.const value)
  | var {name : String} : LeftNested (.var name)
  | member {inner : Expr} {field : Member} (h : LeftNested inner) : LeftNested (.member inner field)
  | unary {op : UnOp} {inner : Expr} (h : LeftNested inner) : LeftNested (.unary op inner)
  | binary {op : BinOp} {left right : Expr} (hleft : LeftNested left) (hright : LeftNested right) :
    LeftNested (.binary op left right)
  | call {func : Func} {args : List Expr} (hargs : ∀ e ∈ args, LeftNested e)
    (hlater : func.isFold → ∀ e ∈ args.tail, ∀ inner, e ≠ .call func inner) : LeftNested (.call func args)
  | branch {cond yes no : Expr} (hcond : LeftNested cond) (hyes : LeftNested yes) (hno : LeftNested no) :
    LeftNested (.branch cond yes no)
  | bind {name : String} {value body : Expr} (hvalue : LeftNested value) (hbody : LeftNested body) :
    LeftNested (.bind name value body)

variable {order : FloatOrder} {hosts : Hosts} {env : Env} {func : Func} {e : Expr} {args more : List Expr}

/-! ### What an argument contributes -/

/-- An argument that is no call of the function around it stays one argument. -/
theorem splice_flatten_of_ne (h : ∀ inner, e ≠ .call func inner) : splice func e.flatten = [e.flatten] := by
  cases e with
  | call inner args =>
    rw [flatten, splice, if_neg]
    rintro ⟨rfl, -⟩
    exact h args rfl
  | _ => rfl

theorem splice_flatten_of_not_associative (h : ¬ func.isAssociative) : splice func e.flatten = [e.flatten] := by
  cases e with
  | call inner args => rw [flatten, splice, if_neg fun hand => h hand.2]
  | _ => rfl

theorem splice_flatten_call (h : func.isAssociative) (args : List Expr) :
    splice func (call func args).flatten = flattenArgs func args := by
  rw [flatten, splice, if_pos ⟨rfl, h⟩]

theorem flattenArgs_eq_map (h : ∀ e ∈ args, splice func e.flatten = [e.flatten]) :
    flattenArgs func args = args.map flatten := by
  induction args with
  | nil => rfl
  | cons e es ih =>
    obtain ⟨he, hes⟩ := List.forall_mem_cons.1 h
    rw [flattenArgs, he, ih hes]
    rfl

/-! ### Lists of operands -/

theorem evalList_append : evalList order hosts env (args ++ more) =
    evalList order hosts env args >>= fun values =>
      evalList order hosts env more >>= fun others => .ok (values ++ others) := by
  induction args with
  | nil => cases h : evalList order hosts env more <;> rw [List.nil_append, evalList, Except.ok_bind, h] <;> rfl
  | cons e es ih =>
    rw [List.cons_append, evalList, evalList, ih]
    cases eval order hosts env e with
    | error err => rfl
    | ok value =>
      cases evalList order hosts env es with
      | error err => rfl
      | ok values => cases evalList order hosts env more <;> rfl

theorem evalList_flatten (h : ∀ e ∈ args, (eval order hosts env e.flatten).SameValue (eval order hosts env e)) :
    (evalList order hosts env (args.map flatten)).SameValue (evalList order hosts env args) := by
  induction args with
  | nil => exact .refl _
  | cons e es ih =>
    obtain ⟨he, hes⟩ := List.forall_mem_cons.1 h
    exact he.bind fun value => (ih hes).bind fun values => .refl _

theorem length_of_evalList {values : List Value} (h : evalList order hosts env args = .ok values) :
    values.length = args.length := by
  induction args generalizing values with
  | nil =>
    cases h
    rfl
  | cons e es ih =>
    obtain ⟨value, -, h⟩ := Except.bind_eq_ok_iff.1 h
    obtain ⟨others, hothers, h⟩ := Except.bind_eq_ok_iff.1 h
    cases h
    rw [List.length_cons, List.length_cons, ih hothers]

/-- A call of a fold whose first operand is a call of the same function has the value of the joined call. -/
theorem eval_joined (hfold : func.isFold) (hargs : args ≠ []) :
    (eval order hosts env (call func (args ++ more))).SameValue
      (eval order hosts env (call func (call func args :: more))) := by
  have hand : func ≠ .and := by rintro rfl; cases hfold
  have hor : func ≠ .or := by rintro rfl; cases hfold
  rw [eval_call hand hor, eval_call hand hor, evalList_append, evalList, eval_call hand hor]
  simp only [bind_assoc, Except.ok_bind]
  intro v
  rw [Except.bind_eq_ok_iff, Except.bind_eq_ok_iff]
  refine exists_congr fun values => and_congr_right fun hvalues => ?_
  have hne : values ≠ [] := fun hnil => hargs (List.eq_nil_of_length_eq_zero (by
    rw [← length_of_evalList hvalues, hnil, List.length_nil]))
  simp only [Func.apply_append hfold hne]
  exact Except.SameValue.comm _ _ _ v

/-! ### Flat trees -/

/-- A conjunction or disjunction asks the same operands in the same order after its nested calls are joined. -/
theorem evalDeciding_flatten {short : Bool} (hfunc : func.isAssociative)
    (hnested : ∀ inner, eval order hosts env (call func inner) = do
      return .bool (← evalDeciding order hosts env short inner))
    (h : ∀ e ∈ args, (eval order hosts env e.flatten).SameValue (eval order hosts env e)) :
    (evalDeciding order hosts env short (flattenArgs func args)).SameValue
      (evalDeciding order hosts env short args) := by
  induction args with
  | nil => exact .refl _
  | cons e es ih =>
    obtain ⟨he, hes⟩ := List.forall_mem_cons.1 h
    have hspliced : evalDeciding order hosts env short (splice func e.flatten ++ flattenArgs func es) = (do
        let value ← eval order hosts env e.flatten
        if (← value.toBool) = short then .ok short
        else evalDeciding order hosts env short (flattenArgs func es)) := by
      by_cases hcall : ∃ inner, e = .call func inner
      · obtain ⟨inner, rfl⟩ := hcall
        rw [splice_flatten_call hfunc, evalDeciding_append, flatten, hnested]
        cases evalDeciding order hosts env short (flattenArgs func inner) <;> rfl
      · rw [splice_flatten_of_ne fun inner heq => hcall ⟨inner, heq⟩]
        rfl
    rw [flattenArgs, hspliced, evalDeciding]
    refine he.bind fun value => (Except.SameValue.refl _).bind fun b => ?_
    split
    · exact .refl _
    · exact ih hes

/-- The operands of a fold, of which the first may be a call of the same function. -/
theorem eval_fold_flatten {scope : Scope} {ty : ValueType} (hfold : func.isFold)
    (hargs : inferIn scope (call func args) = .ok ty)
    (hlater : ∀ e ∈ args.tail, ∀ inner, e ≠ .call func inner)
    (h : ∀ e ∈ args, (eval order hosts env e.flatten).SameValue (eval order hosts env e)) :
    (eval order hosts env (call func (flattenArgs func args))).SameValue (eval order hosts env (call func args)) := by
  obtain ⟨first, rest, rfl⟩ := List.exists_cons_of_ne_nil (args_ne_nil hargs)
  have hand : func ≠ .and := by rintro rfl; cases hfold
  have hor : func ≠ .or := by rintro rfl; cases hfold
  have hrest : flattenArgs func rest = rest.map flatten :=
    flattenArgs_eq_map fun e he => splice_flatten_of_ne (hlater e he)
  have hone : (eval order hosts env (call func (first.flatten :: flattenArgs func rest))).SameValue
      (eval order hosts env (call func (first :: rest))) := by
    rw [hrest, eval_call hand hor, eval_call hand hor]
    exact (evalList_flatten h).bind fun values => .refl _
  rw [flattenArgs]
  by_cases hcall : ∃ inner, first = .call func inner
  · obtain ⟨inner, rfl⟩ := hcall
    have hassoc : func.isAssociative := by cases func <;> first | rfl | cases hfold
    obtain ⟨tys, hforall, -⟩ := inferIn_call.1 hargs
    obtain ⟨t, -, htyped⟩ := hforall.exists_of_mem_left List.mem_cons_self
    have hne : flattenArgs func inner ≠ [] := args_ne_nil (inferIn_flatten htyped)
    rw [splice_flatten_call hassoc]
    exact (eval_joined hfold hne).trans hone
  · rw [splice_flatten_of_ne fun inner heq => hcall ⟨inner, heq⟩]
    exact hone

/-- The flat form of a well-typed tree has its values, if chains of folding functions hang on first operands. -/
theorem eval_flatten {scope : Scope} {ty : ValueType} (h : inferIn scope e = .ok ty) (hnested : e.LeftNested)
    (env : Env) : (eval order hosts env e.flatten).SameValue (eval order hosts env e) := by
  induction hnested generalizing scope ty env with
  | const => exact .refl _
  | var => exact .refl _
  | member _ ih =>
    obtain ⟨t, hinner, -⟩ := inferIn_member.1 h
    exact (ih hinner env).bind fun value => .refl _
  | unary _ ih =>
    obtain ⟨t, hinner, -⟩ := inferIn_unary.1 h
    exact (ih hinner env).bind fun value => .refl _
  | binary _ _ ihl ihr =>
    obtain ⟨l, r, hl, hr, -⟩ := inferIn_binary.1 h
    exact (ihl hl env).bind fun a => (ihr hr env).bind fun b => .refl _
  | branch _ _ _ ihc ihy ihn =>
    obtain ⟨hc, hy, hn⟩ := inferIn_branch.1 h
    refine (ihc hc env).bind fun value => (Except.SameValue.refl _).bind fun b => ?_
    split
    · exact ihy hy env
    · exact ihn hn env
  | bind _ _ ihv ihb =>
    obtain ⟨t, hv, hb⟩ := inferIn_bind.1 h
    exact (ihv hv env).bind fun value => ihb hb ((_, value) :: env)
  | @call func args _ hlater ih =>
    obtain ⟨tys, hargs, -⟩ := inferIn_call.1 h
    have heach : ∀ e ∈ args, (eval order hosts env e.flatten).SameValue (eval order hosts env e) := fun e he => by
      obtain ⟨t, -, het⟩ := hargs.exists_of_mem_left he
      exact ih e he het env
    rw [flatten]
    by_cases hassoc : func.isAssociative
    · rcases Func.isAssociative_cases hassoc with hfold | rfl | rfl
      · exact eval_fold_flatten hfold h (hlater hfold) heach
      · exact (evalDeciding_flatten hassoc (fun _ => rfl) heach).bind fun b => .refl _
      · exact (evalDeciding_flatten hassoc (fun _ => rfl) heach).bind fun b => .refl _
    · have hand : func ≠ .and := by rintro rfl; exact hassoc rfl
      have hor : func ≠ .or := by rintro rfl; exact hassoc rfl
      rw [flattenArgs_eq_map fun e _ => splice_flatten_of_not_associative hassoc, eval_call hand hor,
        eval_call hand hor]
      exact (evalList_flatten heach).bind fun values => .refl _

end Expr

/-! ### Compiled trees -/

namespace Callable

open Barrage.Expr

/-- A well-typed tree can be compiled, and the callable comes to what the tree does. -/
theorem exists_ofExpr {e : Expr} {params : List Param} {ty : ValueType} (h : e.infer params = .ok ty) :
    ∃ c, Callable.ofExpr e params ty = .ok c ∧ ∀ (args : List Value) (hosts : Hosts),
      args.map Value.type = params.map (·.type) →
        c.invoke args hosts = (e.eval .exact hosts (Env.of params args), hosts) := by
  have hnames : (Scope.of params).map Prod.fst = (params.map (·.name)).reverse := by
    simp [Scope.of, List.map_reverse]
  have htyped : inferIn (Scope.of params) e = .ok ty := h
  obtain ⟨code, hcode⟩ := exists_compile htyped
  rw [hnames] at hcode
  refine ⟨_, by rw [ofExpr, hcode, Except.ok_bind], fun args hosts hargs => ?_⟩
  have hlength : args.length = params.length := by simpa using congrArg List.length hargs
  have hyields : Yields ty (e.eval .exact hosts (Env.of params args)) := eval_yields h (Env.typed_of hargs)
  rw [invoke_eq hosts hargs]
  simp only [runBody, List.nil_append, Signature.of, Code.run_eq_eval hcode hlength]
  cases heval : e.eval .exact hosts (Env.of params args) with
  | error err => rfl
  | ok v =>
    rw [heval] at hyields
    have htype : v.type = ty := hyields
    simp only [htype, if_true]

/-- Flattening keeps the values of well-typed trees of which chains of sums, products, minima and maxima hang on
first operands. The tree and its flat form, evaluated as they are or compiled, come to the same value on all
well-typed arguments on which one of them comes to any. -/
theorem flatten_keeps_values {e : Expr} {params : List Param} {ty : ValueType} (h : e.infer params = .ok ty)
    (hnested : e.LeftNested) :
    (∀ (order : FloatOrder) (hosts : Hosts) (args : List Value), args.map Value.type = params.map (·.type) →
      ∀ v, e.flatten.eval order hosts (Env.of params args) = .ok v ↔
        e.eval order hosts (Env.of params args) = .ok v) ∧
    ∃ nested flat, Callable.ofExpr e params ty = .ok nested ∧ Callable.ofExpr e.flatten params ty = .ok flat ∧
      ∀ (hosts : Hosts) (args : List Value), args.map Value.type = params.map (·.type) →
        ∀ v, (flat.invoke args hosts).1 = .ok v ↔ (nested.invoke args hosts).1 = .ok v := by
  have heval : ∀ (order : FloatOrder) (hosts : Hosts) (args : List Value),
      (e.flatten.eval order hosts (Env.of params args)).SameValue (e.eval order hosts (Env.of params args)) :=
    fun order hosts args => eval_flatten h hnested _
  refine ⟨fun order hosts args _ => heval order hosts args, ?_⟩
  have hflat : e.flatten.infer params = .ok ty := inferIn_flatten h
  obtain ⟨nested, hcompiled, hinvoke⟩ := exists_ofExpr h
  obtain ⟨flat, hcompiled', hinvoke'⟩ := exists_ofExpr hflat
  refine ⟨nested, flat, hcompiled, hcompiled', fun hosts args hargs v => ?_⟩
  rw [hinvoke args hosts hargs, hinvoke' args hosts hargs]
  exact heval .exact hosts args v

/-- A sum of three, with a binding as its last operand and a conjunction within a conjunction beside it. -/
theorem flatten_keeps_values_chain :
    let x : Expr := .var "x"
    let sum : Expr := .call .add [.call .add [x, x], .bind "y" x (.call .add [.var "y", x])]
    let deep : Expr := .call .and [.const (.bool true), .call .and [.const (.bool true), .binary .lt x sum]]
    let e : Expr := .branch deep sum x
    let params : List Param := [⟨"x", .int⟩]
    e.infer params = .ok .int ∧ e.LeftNested ∧
      (∀ v, e.flatten.eval .exact {} (Env.of params [.int 2]) = .ok v ↔
        e.eval .exact {} (Env.of params [.int 2]) = .ok v) ∧
      e.eval .exact {} (Env.of params [.int 2]) = .ok (.int 8) := by
  intro x sum deep e params
  have hx : x.LeftNested := .var
  have hsum : sum.LeftNested := by
    refine .call (fun arg harg => ?_) fun _ arg harg inner heq => ?_
    · rcases List.mem_cons.1 harg with rfl | harg
      · exact .call (by simp [hx]) (by simp [x])
      · rw [List.mem_singleton.1 harg]
        exact .bind hx (.call (by simpa using ⟨.var, hx⟩) (by simp [x]))
    · rw [List.mem_singleton.1 harg] at heq
      cases heq
  have hdeep : deep.LeftNested := by
    refine .call (fun arg harg => ?_) (fun h => nomatch h)
    rcases List.mem_cons.1 harg with rfl | harg
    · exact .const
    · rw [List.mem_singleton.1 harg]
      exact .call (by simpa using ⟨.const, .binary hx hsum⟩) (fun h => nomatch h)
  have htype : e.infer params = .ok .int := by decide +kernel
  have hnested : e.LeftNested := .branch hdeep hsum hx
  exact ⟨htype, hnested, (flatten_keeps_values htype hnested).1 .exact {} [.int 2] rfl, rfl⟩

end Callable

end Barrage
