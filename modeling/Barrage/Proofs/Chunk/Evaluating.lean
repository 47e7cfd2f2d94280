import Barrage.Proofs.Chunk.Serving
import Barrage.Proofs.Chunk.UnitLines
import Barrage.Proofs.Number.Packing

/-!
# Printed expressions evaluate alike

What a well-typed expression without bindings and objects is read as, simplified, serves its evaluation
with the tolerant comparisons of floats. The proof follows the expression. Conjunctions and disjunctions
are joined two operands at a time, and sums, products, minima and maxima as well; everything else is one
call or one operator.

## Main definitions

* `Term.Env.Holds` — environments that have the values of another one

## Main results

* `Term.serves_decided` — a chain of operands of which the first may decide
* `Term.serves_apply` — functions that are printed as one call
* `Term.serves_expr` — terms of expressions serve their evaluations
-/

namespace Barrage

open Chunk Barrage.Expr

namespace Term

variable {chunk : Chunk} {calls : Calls} {env : Env} {hosts : Hosts} {senv : Expr.Env} {scope : Scope}
  {ty : ValueType}

/-- The environment has every value that the environment of an expression has. -/
def Env.Holds (env : Env) (senv : Expr.Env) : Prop :=
  ∀ x v, senv.lookup x = some v → env.lookup x = some (.value v)

/-! ### Calls with few arguments -/

section Calls

variable (hcalls : calls.Plain)

include hcalls

theorem serves_call_nil {name : String} (hname : name ∈ printedFunctions) {v : Value}
    (hnative : pureNative hosts name [] = some (.ok v)) :
    Serves hosts (eval chunk calls env (ofCall name [])) Datum.value (.ok v) := by
  have hargs : Serves hosts (evalList chunk calls env []) (List.map Datum.value) (.ok []) := by
    rw [evalList]
    rfl
  have hcall := serves_call hcalls hname (f := fun _ => .ok v) hargs fun vs hvs => by
    cases hvs
    exact hnative
  exact hcall

theorem serves_call_one {name : String} (hname : name ∈ printedFunctions) {t : Term}
    {r : Except EvalError Value} {f : Value → Except EvalError Value}
    (ht : Serves hosts (eval chunk calls env t) Datum.value r)
    (hnative : ∀ v, pureNative hosts name [v] = some (f v)) :
    Serves hosts (eval chunk calls env (ofCall name [t])) Datum.value (r >>= f) := by
  have hargs : Serves hosts (evalList chunk calls env [t]) (List.map Datum.value)
      (r >>= fun v => .ok [v]) := by
    simp only [evalList, pure_bind]
    exact ht.bind fun v _ => rfl
  have hcall := serves_call hcalls hname (f := fun vs => f (vs.headD (.bool false))) hargs
    fun vs hvs => by
      obtain ⟨v, -, hv⟩ := Except.bind_eq_ok_iff.1 hvs
      cases hv
      exact hnative v
  cases r <;> exact hcall

theorem serves_call_two {name : String} (hname : name ∈ printedFunctions) {t u : Term}
    {r s : Except EvalError Value} {f : Value → Value → Except EvalError Value}
    (ht : Serves hosts (eval chunk calls env t) Datum.value r)
    (hu : Serves hosts (eval chunk calls env u) Datum.value s)
    (hnative : ∀ v w, pureNative hosts name [v, w] = some (f v w)) :
    Serves hosts (eval chunk calls env (ofCall name [t, u])) Datum.value
      (r >>= fun v => s >>= fun w => f v w) := by
  have hargs : Serves hosts (evalList chunk calls env [t, u]) (List.map Datum.value)
      (r >>= fun v => s >>= fun w => .ok [v, w]) := by
    simp only [evalList, pure_bind, bind_assoc]
    exact ht.bind fun v _ => hu.bind fun w _ => rfl
  have hcall := serves_call hcalls hname
    (f := fun vs => f (vs.headD (.bool false)) (vs.tail.headD (.bool false))) hargs fun vs hvs => by
      obtain ⟨v, -, hv⟩ := Except.bind_eq_ok_iff.1 hvs
      obtain ⟨w, -, hw⟩ := Except.bind_eq_ok_iff.1 hv
      cases hw
      exact hnative v w
  cases r with
  | error e => exact hcall
  | ok v => cases s <;> exact hcall

/-! ### Constants -/

/-- A double, however it is written, is itself. -/
theorem serves_float (x : Float) :
    Serves hosts (eval chunk calls env (floatPhrase x).term.simplify) Datum.value (.ok (.float x)) := by
  have hinfinity : Serves hosts (eval chunk calls env (ofCall "float_inf" [])) Datum.value
      (.ok (.float (Binary.toFloat (.infinite false)))) :=
    serves_call_nil hcalls (by decide) rfl
  unfold floatPhrase
  cases hx : Binary.ofFloat x with
  | nan =>
    rw [Rounding.eq_toFloat_of_ofFloat_nan hx]
    exact serves_call_nil hcalls (by decide) rfl
  | infinite negative =>
    rw [Rounding.eq_toFloat_of_ofFloat_infinite hx]
    cases negative with
    | false => exact hinfinity
    | true =>
      have hneg : Serves hosts (eval chunk calls env (ofCall "neg" [ofCall "float_inf" []])) Datum.value
          (.ok (.float (Binary.toFloat (.infinite false))) >>= Value.unary .neg) :=
        serves_call_one hcalls (by decide) hinfinity fun v => rfl
      rw [← Rounding.neg_infinity]
      exact hneg
  | finite negative mantissa exponent =>
    change Serves hosts (eval chunk calls env (float x)) Datum.value (.ok (.float x))
    rw [eval]
    rfl

end Calls

/-- A whole number, however it is written, is itself. -/
theorem serves_int (n : Int64) :
    Serves hosts (eval chunk calls env (intPhrase n).term.simplify) Datum.value (.ok (.int n)) := by
  have hint : ∀ n, Serves hosts (eval chunk calls env (int n)) Datum.value (.ok (.int n)) := by
    intro n
    rw [eval]
    rfl
  unfold intPhrase
  split
  · rename_i hn
    subst hn
    have hsub : (Operator.op .sub) ≠ .func .and ∧ (Operator.op .sub) ≠ .func .or := by simp
    have hdifference := serves_ofOperator hsub.1 hsub.2 (f := Value.binary .tolerant .sub)
      (hint (-9223372036854775807)) (hint 1) fun a b ha hb => by
        cases ha
        cases hb
        rfl
    exact hdifference
  · exact hint n

/-! ### Operands that decide -/

section Deciding

variable {short : Bool}

theorem foldl_decidedBy_error (rs : List (Except EvalError Value)) (e : EvalError) :
    rs.foldl (decidedBy short) (.error e) = .error e := by
  induction rs with
  | nil => rfl
  | cons r rs ih => exact ih

theorem foldl_decidedBy_short (rs : List (Except EvalError Value)) :
    rs.foldl (decidedBy short) (.ok (.bool short)) = .ok (.bool short) := by
  induction rs with
  | nil => rfl
  | cons r rs ih => rw [List.foldl_cons, decidedBy_short, ih]

/-- Operands joined two at a time decide as they do one after another. -/
theorem foldl_decidedBy {first : Expr} {rest : List Expr}
    (h : ∀ e ∈ first :: rest, GivesBool (Expr.eval .tolerant hosts senv e)) :
    (rest.map (Expr.eval .tolerant hosts senv)).foldl (decidedBy short)
        (Expr.eval .tolerant hosts senv first) =
      (evalDeciding .tolerant hosts senv short (first :: rest)).map Value.bool := by
  induction rest generalizing first with
  | nil =>
    rw [evalDeciding, List.map_nil, List.foldl_nil]
    cases hfirst : Expr.eval .tolerant hosts senv first with
    | error e => rfl
    | ok v =>
      obtain ⟨b, rfl⟩ := h first (by simp) v hfirst
      cases b <;> cases short <;> rfl
  | cons e es ih =>
    obtain ⟨hfirstBool, hrest⟩ := List.forall_mem_cons.1 h
    rw [evalDeciding, List.map_cons, List.foldl_cons]
    cases hfirst : Expr.eval .tolerant hosts senv first with
    | error err => exact foldl_decidedBy_error _ err
    | ok v =>
      obtain ⟨b, rfl⟩ := hfirstBool v hfirst
      simp only [Value.toBool, Except.ok_bind]
      by_cases hb : b = short
      · rw [if_pos hb, hb, decidedBy_short, foldl_decidedBy_short]
        rfl
      · rw [if_neg hb, decidedBy_of_ne hb (hrest e (by simp)), ih hrest]

/-- Joining two operands of which the first may decide gives a truth value. -/
theorem givesBool_decidedBy (r s : Except EvalError Value) : GivesBool (decidedBy short r s) := by
  intro v hv
  obtain ⟨u, -, hv⟩ := Except.bind_eq_ok_iff.1 hv
  obtain ⟨b, -, hv⟩ := Except.bind_eq_ok_iff.1 hv
  split at hv
  · cases hv
    exact ⟨short, rfl⟩
  · obtain ⟨w, -, hv⟩ := Except.bind_eq_ok_iff.1 hv
    obtain ⟨c, -, hv⟩ := Except.bind_eq_ok_iff.1 hv
    cases hv
    exact ⟨c, rfl⟩

theorem serves_foldl_joined {es : List Expr} (h : ∀ e ∈ es, ServesExpr chunk calls env hosts senv e)
    (hbool : ∀ e ∈ es, GivesBool (Expr.eval .tolerant hosts senv e)) {t : Term}
    {r : Except EvalError Value} (ht : Serves hosts (eval chunk calls env t) Datum.value r)
    (hr : GivesBool r) :
    Serves hosts (eval chunk calls env ((es.map ofExpr).foldl (joined (deciding short)) t)) Datum.value
      ((es.map (Expr.eval .tolerant hosts senv)).foldl (decidedBy short) r) := by
  induction es generalizing t r with
  | nil => exact ht
  | cons e es ih =>
    obtain ⟨he, hrest⟩ := List.forall_mem_cons.1 h
    obtain ⟨heBool, hrestBool⟩ := List.forall_mem_cons.1 hbool
    exact ih hrest hrestBool (serves_deciding ht he hr heBool) (givesBool_decidedBy _ _)

/-- A chain of operands of which the first may decide serves their decision. -/
theorem serves_decided {first : Expr} {rest : List Expr}
    (h : ∀ e ∈ first :: rest, ServesExpr chunk calls env hosts senv e)
    (hbool : ∀ e ∈ first :: rest, GivesBool (Expr.eval .tolerant hosts senv e)) :
    Serves hosts (eval chunk calls env ((rest.map ofExpr).foldl (joined (deciding short)) (ofExpr first)))
      Datum.value ((evalDeciding .tolerant hosts senv short (first :: rest)).map Value.bool) := by
  rw [← foldl_decidedBy hbool]
  obtain ⟨hfirst, hrest⟩ := List.forall_mem_cons.1 h
  obtain ⟨hfirstBool, hrestBool⟩ := List.forall_mem_cons.1 hbool
  exact serves_foldl_joined hrest hrestBool hfirst hfirstBool

end Deciding

/-! ### Functions -/

/-- Functions that are printed as one call. -/
def isSingleCall : Func → Bool
  | .add | .mul | .min | .max | .and | .or => false
  | _ => true

theorem simplify_call (function : String) (args : List Expr) :
    (Phrase.call function (phrases args)).term.simplify = ofCall function (args.map ofExpr) := by
  rw [Phrase.term, simplify, simplifyAll_eq_map, Phrase.terms_eq_map, phrases_eq_map, List.map_map,
    List.map_map]
  rfl

/-- Nested calls are simplified from the innermost on. -/
theorem simplify_foldl_call (function : String) (first : Phrase) (rest : List Phrase) :
    (rest.foldl (fun acc p => Phrase.call function [acc, p]) first).term.simplify =
      (rest.map fun p => p.term.simplify).foldl (fun acc t => ofCall function [acc, t])
        first.term.simplify := by
  induction rest generalizing first with
  | nil => rfl
  | cons p rest ih =>
    rw [List.foldl_cons, ih, List.map_cons, List.foldl_cons]
    rfl

theorem length_evalList {es : List Expr} {vs : List Value} {order : FloatOrder}
    (h : Expr.evalList order hosts senv es = .ok vs) : vs.length = es.length := by
  induction es generalizing vs with
  | nil =>
    cases h
    rfl
  | cons e es ih =>
    rw [Expr.evalList] at h
    obtain ⟨v, -, h⟩ := Except.bind_eq_ok_iff.1 h
    obtain ⟨ws, hws, h⟩ := Except.bind_eq_ok_iff.1 h
    cases h
    rw [List.length_cons, List.length_cons, ih hws]

/-- A function with the right number of arguments is one that every chunk can call. -/
theorem pureNative_apply {func : Func} (h : isSingleCall func = true) {vs : List Value}
    (htakes : func.takes vs.length = true) : pureNative hosts func.name vs = some (func.apply vs) := by
  cases func with
  | add | mul | min | max | and | or => cases h
  | vec2 =>
    have hlength : 2 = vs.length := eq_of_beq htakes
    obtain ⟨u, v, rfl⟩ := List.length_eq_two.1 hlength.symm
    rfl
  | lerp | clamp =>
    have hlength : 3 = vs.length := eq_of_beq htakes
    obtain ⟨u, v, w, rfl⟩ := List.length_eq_three.1 hlength.symm
    rfl
  | _ =>
    have hlength : 1 = vs.length := eq_of_beq htakes
    obtain ⟨v, rfl⟩ := List.length_eq_one_iff.1 hlength.symm
    rfl

/-- What one step of joining operands comes to. -/
def JoinsTo (a b : Value) : Except EvalError Value → Prop
  | .ok c => (a.type = .int ↔ b.type = .int) → (c.type = .int ↔ a.type = .int)
  | .error e => ∀ slot, e ≠ .unboundSlot slot

theorem joins_of_joinsTo {step : Value → Value → Except EvalError Value}
    (h : ∀ a b, JoinsTo a b (step a b)) : Joins step where
  int_iff a b c hc hint := by
    have hjoins := h a b
    rw [hc] at hjoins
    exact hjoins hint
  bound a b e he := by
    have hjoins := h a b
    rw [he] at hjoins
    exact hjoins

theorem joinsTo_checked (m n : Int64) (operation : Arithmetic) (result : Option Int64) :
    JoinsTo (.int m) (.int n) (Value.checked operation result) := by
  cases result <;> simp [JoinsTo, Value.checked, Value.type]

theorem joins_plus : Joins Value.plus := by
  refine joins_of_joinsTo fun a b => ?_
  cases a <;> cases b <;>
    first | exact joinsTo_checked _ _ _ _ | simp [JoinsTo, Value.plus, Value.type, Value.mismatch]

theorem joins_times : Joins Value.times := by
  refine joins_of_joinsTo fun a b => ?_
  cases a <;> cases b <;>
    first | exact joinsTo_checked _ _ _ _ | simp [JoinsTo, Value.times, Value.type, Value.mismatch]

theorem joins_least : Joins Value.least := by
  refine joins_of_joinsTo fun a b => ?_
  cases a <;> cases b <;> simp [JoinsTo, Value.least, Value.type, Value.mismatch]

theorem joins_greatest : Joins Value.greatest := by
  refine joins_of_joinsTo fun a b => ?_
  cases a <;> cases b <;> simp [JoinsTo, Value.greatest, Value.type, Value.mismatch]

/-- Operands that are joined one after another, evaluated with the first one apart. -/
theorem eval_call_joined {func : Func} {step : Value → Value → Except EvalError Value}
    (hand : func ≠ .and) (hor : func ≠ .or)
    (happly : ∀ a vs, func.apply (a :: vs) = Func.joinWith step a vs) (first : Expr) (rest : List Expr) :
    Expr.eval .tolerant hosts senv (.call func (first :: rest)) =
      Expr.eval .tolerant hosts senv first >>= fun a =>
        Expr.evalList .tolerant hosts senv rest >>= fun vs => Func.joinWith step a vs := by
  have hcall : Expr.eval .tolerant hosts senv (.call func (first :: rest)) =
      Expr.evalList .tolerant hosts senv (first :: rest) >>= func.apply := by
    cases func <;> first | rfl | exact absurd rfl hand | exact absurd rfl hor
  rw [hcall, Expr.evalList]
  cases Expr.eval .tolerant hosts senv first with
  | error e => rfl
  | ok a =>
    cases Expr.evalList .tolerant hosts senv rest with
    | error e => rfl
    | ok vs => exact happly a vs

/-- The types of operands that are joined. -/
theorem int_iff_of_mem {func : Func} {args : List Expr} {tys : List ValueType}
    (hfunc : func = .add ∨ func = .mul ∨ func = .min ∨ func = .max)
    (hargs : List.Forall₂ (fun e ty => inferIn scope e = .ok ty) args tys)
    (htype : func.type tys = .ok ty) (hscope : senv.Fits scope) :
    ∀ e ∈ args, ∀ v, Expr.eval .tolerant hosts senv e = .ok v → (v.type = .int ↔ ty = .int) := by
  have htypes : ∀ t ∈ tys, (t = .int ↔ ty = .int) := by
    have huniform : ∀ {kinds}, Func.Uniform kinds tys ty → ∀ t ∈ tys, (t = .int ↔ ty = .int) :=
      fun hu t ht => by rw [hu.all t ht]
    have htype := (Func.type_eq_ok_iff.1 htype).2
    rcases hfunc with rfl | rfl | rfl | rfl
    · exact huniform (Func.type?_add.1 htype)
    · rcases Func.type?_mul.1 htype with hu | ⟨rfl, hs⟩
      · exact huniform hu
      · intro t ht
        rcases hs.all t ht with rfl | rfl <;> decide
    · exact huniform (Func.type?_min.1 htype)
    · exact huniform (Func.type?_max.1 htype)
  intro e he v hv
  obtain ⟨t, ht, hety⟩ := hargs.exists_of_mem_left he
  rw [type_of_eval hety hscope hv]
  exact htypes t ht

section Functions

variable {func : Func} {first : Expr} {rest args : List Expr} {tys : List ValueType}

/-- A chain of expressions is simplified from its first operand on. -/
theorem simplify_chain (op : Operator) :
    (Phrase.chain op first.phrase (phrases rest)).term.simplify =
      (rest.map ofExpr).foldl (joined op) (ofExpr first) := by
  rw [Phrase.simplify_chain, phrases_eq_map, List.map_map]
  rfl

/-- Functions that are printed as one call. -/
theorem serves_single (hcalls : calls.Plain) (hsingle : isSingleCall func = true)
    (htakes : func.takes args.length = true)
    (ih : ∀ e ∈ args, ServesExpr chunk calls env hosts senv e) :
    ServesExpr chunk calls env hosts senv (.call func args) := by
  have hterm : ofExpr (.call func args) = ofCall func.name (args.map ofExpr) := by
    rw [← simplify_call]
    cases func <;> first | rfl | cases hsingle
  have heval : Expr.eval .tolerant hosts senv (.call func args) =
      Expr.evalList .tolerant hosts senv args >>= func.apply := by
    cases func <;> first | rfl | cases hsingle
  have hname : func.name ∈ printedFunctions := by cases func <;> decide
  unfold ServesExpr
  rw [hterm, heval]
  refine serves_call hcalls hname (serves_evalList ih) fun vs hvs => pureNative_apply hsingle ?_
  rw [length_evalList hvs]
  exact htakes

/-- Functions whose operands are joined two at a time. -/
theorem serves_joined {step : Value → Value → Except EvalError Value} {node : Term → Term → Term}
    (hfunc : func = .add ∨ func = .mul ∨ func = .min ∨ func = .max)
    (happly : ∀ a vs, func.apply (a :: vs) = Func.joinWith step a vs)
    (hterm : ofExpr (.call func (first :: rest)) = (rest.map ofExpr).foldl node (ofExpr first))
    (hnode : ∀ {l r : Term} {rl rr : Except EvalError Value},
      Serves hosts (eval chunk calls env l) Datum.value rl →
      Serves hosts (eval chunk calls env r) Datum.value rr →
      (∀ a b, rl = .ok a → rr = .ok b → (a.type = .int ↔ b.type = .int)) →
      Serves hosts (eval chunk calls env (node l r)) Datum.value
        (rl >>= fun a => rr >>= fun b => step a b))
    (hstep : Joins step) (ih : ∀ e ∈ first :: rest, ServesExpr chunk calls env hosts senv e)
    (hargs : List.Forall₂ (fun e ty => inferIn scope e = .ok ty) (first :: rest) tys)
    (htype : func.type tys = .ok ty) (hscope : senv.Fits scope) :
    ServesExpr chunk calls env hosts senv (.call func (first :: rest)) := by
  have hand : func ≠ .and := by rintro rfl; simp at hfunc
  have hor : func ≠ .or := by rintro rfl; simp at hfunc
  have hints : ∀ e ∈ first :: rest, ∀ v, Expr.eval .tolerant hosts senv e = .ok v →
      (v.type = .int ↔ ty = .int) := int_iff_of_mem hfunc hargs htype hscope
  obtain ⟨hfirst, hrest⟩ := List.forall_mem_cons.1 ih
  obtain ⟨hfirstType, hrestTypes⟩ := List.forall_mem_cons.1 hints
  unfold ServesExpr
  rw [hterm, eval_call_joined hand hor happly]
  exact serves_foldl hnode hstep hrest hrestTypes hfirst hfirstType

/-- Minima and maxima, which are printed as nested calls of two arguments each. -/
theorem serves_nested (hcalls : calls.Plain) {step : Value → Value → Except EvalError Value}
    (hfunc : func = .min ∨ func = .max)
    (happly : ∀ a vs, func.apply (a :: vs) = Func.joinWith step a vs)
    (hnative : ∀ v w, pureNative hosts func.name [v, w] = some (func.apply [v, w]))
    (hstep : Joins step) (ih : ∀ e ∈ first :: rest, ServesExpr chunk calls env hosts senv e)
    (hargs : List.Forall₂ (fun e ty => inferIn scope e = .ok ty) (first :: rest) tys)
    (htype : func.type tys = .ok ty) (hscope : senv.Fits scope) :
    ServesExpr chunk calls env hosts senv (.call func (first :: rest)) := by
  have hname : func.name ∈ printedFunctions := by rcases hfunc with rfl | rfl <;> decide
  have hterm : ofExpr (.call func (first :: rest)) =
      (rest.map ofExpr).foldl (fun acc t => ofCall func.name [acc, t]) (ofExpr first) := by
    have hphrase : (Expr.call func (first :: rest)).phrase = (phrases rest).foldl
        (fun acc p => Phrase.call func.name [acc, p]) first.phrase := by
      rcases hfunc with rfl | rfl <;> rfl
    rw [ofExpr, hphrase, simplify_foldl_call, phrases_eq_map, List.map_map]
    rfl
  have hpair : ∀ v w, pureNative hosts func.name [v, w] = some (step v w) := by
    intro v w
    rw [hnative, happly, Func.joinWith, List.foldlM_cons]
    cases step v w <;> rfl
  exact serves_joined (.inr (.inr hfunc)) happly hterm
    (fun hl hr _ => serves_call_two hcalls hname hl hr hpair) hstep ih hargs htype hscope

/-- Conjunctions and disjunctions. -/
theorem serves_logical {short : Bool} (hfunc : func = if short then .or else .and)
    (ih : ∀ e ∈ first :: rest, ServesExpr chunk calls env hosts senv e)
    (hargs : List.Forall₂ (fun e ty => inferIn scope e = .ok ty) (first :: rest) tys)
    (htype : func.type tys = .ok ty) (hscope : senv.Fits scope) :
    ServesExpr chunk calls env hosts senv (.call func (first :: rest)) := by
  have htypes : ∀ t ∈ tys, t = .bool := by
    have htype := (Func.type_eq_ok_iff.1 htype).2
    cases short <;> subst hfunc
    · exact (Func.type?_and.1 htype).2
    · exact (Func.type?_or.1 htype).2
  have hbool : ∀ e ∈ first :: rest, GivesBool (Expr.eval .tolerant hosts senv e) := by
    intro e he v hv
    obtain ⟨t, ht, hety⟩ := hargs.exists_of_mem_left he
    rw [htypes t ht] at hety
    exact Value.exists_bool (type_of_eval hety hscope hv)
  have hterm : ofExpr (.call func (first :: rest)) =
      (rest.map ofExpr).foldl (joined (deciding short)) (ofExpr first) := by
    rw [← simplify_chain]
    cases short <;> subst hfunc <;> rfl
  have heval : Expr.eval .tolerant hosts senv (.call func (first :: rest)) =
      (evalDeciding .tolerant hosts senv short (first :: rest)).map Value.bool := by
    cases short with
    | false =>
      subst hfunc
      change Expr.eval .tolerant hosts senv (.call .and (first :: rest)) = _
      rw [Expr.eval]
      cases evalDeciding .tolerant hosts senv false (first :: rest) <;> rfl
    | true =>
      subst hfunc
      change Expr.eval .tolerant hosts senv (.call .or (first :: rest)) = _
      rw [Expr.eval]
      cases evalDeciding .tolerant hosts senv true (first :: rest) <;> rfl
  unfold ServesExpr
  rw [hterm, heval]
  exact serves_decided ih hbool

/-- Calls serve what functions do with the values of their arguments. -/
theorem serves_apply (hcalls : calls.Plain)
    (hargs : List.Forall₂ (fun e ty => inferIn scope e = .ok ty) args tys)
    (htype : func.type tys = .ok ty) (hscope : senv.Fits scope)
    (ih : ∀ e ∈ args, ServesExpr chunk calls env hosts senv e) :
    ServesExpr chunk calls env hosts senv (.call func args) := by
  have htakes := (Func.type_eq_ok_iff.1 htype).1
  rw [← hargs.length_eq] at htakes
  by_cases hsingle : isSingleCall func = true
  · exact serves_single hcalls hsingle htakes ih
  · obtain ⟨first, rest, rfl⟩ : ∃ first rest, args = first :: rest := by
      cases args with
      | nil => cases func <;> cases htakes
      | cons first rest => exact ⟨first, rest, rfl⟩
    cases func with
    | add =>
      refine serves_joined (.inl rfl) (fun _ _ => rfl) (simplify_chain _) (fun hl hr h => ?_) joins_plus
        ih hargs htype hscope
      exact serves_ofOperator (by simp) (by simp) hl hr fun a b ha hb => Datum.operate?_add (h a b ha hb)
    | mul =>
      refine serves_joined (.inr (.inl rfl)) (fun _ _ => rfl) (simplify_chain _) (fun hl hr h => ?_)
        joins_times ih hargs htype hscope
      exact serves_ofOperator (by simp) (by simp) hl hr fun a b ha hb => Datum.operate?_mul (h a b ha hb)
    | min =>
      exact serves_nested hcalls (.inl rfl) (fun _ _ => rfl) (fun _ _ => rfl) joins_least ih hargs htype
        hscope
    | max =>
      exact serves_nested hcalls (.inr rfl) (fun _ _ => rfl) (fun _ _ => rfl) joins_greatest ih hargs htype
        hscope
    | and =>
      have hfunc : Func.and = if false then .or else .and := rfl
      exact serves_logical hfunc ih hargs htype hscope
    | or =>
      have hfunc : Func.or = if true then .or else .and := rfl
      exact serves_logical hfunc ih hargs htype hscope
    | _ => exact absurd rfl hsingle

end Functions

/-- Reading a member is one call. -/
theorem serves_member (hcalls : calls.Plain) {inner : Expr} (field : Member)
    (ih : ServesExpr chunk calls env hosts senv inner) :
    ServesExpr chunk calls env hosts senv (.member inner field) := by
  have hname : field.getter ∈ printedFunctions := by cases field <;> decide
  have hterm : ofExpr (.member inner field) = ofCall field.getter [ofExpr inner] := by
    rw [ofExpr, Expr.phrase, Phrase.term, simplify]
    rfl
  unfold ServesExpr
  rw [hterm, Expr.eval]
  exact serves_call_one hcalls hname ih fun v => by cases field <;> rfl

/-- An operator with one operand is one call. -/
theorem serves_unary (hcalls : calls.Plain) {inner : Expr} (op : UnOp)
    (ih : ServesExpr chunk calls env hosts senv inner) :
    ServesExpr chunk calls env hosts senv (.unary op inner) := by
  have hname : op.function ∈ printedFunctions := by cases op <;> decide
  have hterm : ofExpr (.unary op inner) = ofCall op.function [ofExpr inner] := by
    rw [ofExpr, Expr.phrase, Phrase.term, simplify]
    rfl
  unfold ServesExpr
  rw [hterm, Expr.eval]
  exact serves_call_one hcalls hname ih fun v => by cases op <;> rfl

/-- A choice evaluates its condition and one side, also if the condition is a literal. -/
theorem serves_ofDecided {α : Type} {conv : α → Datum} {cond yes no : Term} {rc : Except EvalError Value}
    {ry rn : Except EvalError α} (hc : Serves hosts (eval chunk calls env cond) Datum.value rc)
    (hy : Serves hosts (eval chunk calls env yes) conv ry)
    (hn : Serves hosts (eval chunk calls env no) conv rn) (hbool : GivesBool rc) :
    Serves hosts (eval chunk calls env (ofDecided cond yes no)) conv
      (rc >>= fun v => v.toBool >>= fun b => if b then ry else rn) := by
  rcases ofDecided_cases cond yes no with ⟨rfl, heq⟩ | ⟨rfl, heq⟩ | ⟨-, -, heq⟩
  · rw [heq]
    rcases eq_of_serves_bool hc with rfl | ⟨slot, rfl⟩
    · exact hy
    · exact serves_unbound slot
  · rw [heq]
    rcases eq_of_serves_bool hc with rfl | ⟨slot, rfl⟩
    · exact hn
    · exact serves_unbound slot
  · rw [heq, eval]
    refine hc.bind fun v hv => ?_
    obtain ⟨b, rfl⟩ := hbool v hv
    cases b with
    | true =>
      change Serves hosts (evalBody chunk calls env [.eval yes]) conv ry
      rw [evalBody]
      exact hy
    | false =>
      change Serves hosts (evalBody chunk calls env [.eval no]) conv rn
      rw [evalBody]
      exact hn

/-- A constant serves its value. -/
theorem serves_const (hcalls : calls.Plain) {value : Value} (htimer : value.type ≠ .timer)
    (hentity : value.type ≠ .entity) : ServesExpr chunk calls env hosts senv (.const value) := by
  unfold ServesExpr
  rw [Expr.eval]
  cases value with
  | float x => exact serves_float hcalls x
  | int n => exact serves_int n
  | bool b => exact serves_bool b
  | vec2 v =>
    have hvec : Serves hosts (eval chunk calls env (ofCall "vec2"
        [(floatPhrase v.x).term.simplify, (floatPhrase v.y).term.simplify])) Datum.value
        (.ok (.float v.x) >>= fun x => .ok (.float v.y) >>= fun y => Func.vec2.apply [x, y]) :=
      serves_call_two hcalls (by decide) (serves_float hcalls v.x) (serves_float hcalls v.y)
        fun _ _ => rfl
    exact hvec
  | timer handle => exact absurd rfl htimer
  | entity handle => exact absurd rfl hentity

/-- A name serves what it stands for. -/
theorem serves_var (henv : Env.Holds env senv) (name : String) :
    ServesExpr chunk calls env hosts senv (.var name) := by
  unfold ServesExpr
  rw [Expr.eval]
  change Serves hosts (eval chunk calls env (.name name)) _ _
  rw [eval, lookup]
  cases hname : senv.lookup name with
  | none => exact serves_unbound _
  | some v =>
    rw [henv name v hname]
    rfl

/-- What a well-typed expression is read as serves its evaluation. -/
theorem serves_expr (hcalls : calls.Plain) (henv : Env.Holds env senv) (hscope : senv.Fits scope)
    {e : Expr} (h : inferIn scope e = .ok ty) (hprintable : e.Printable) :
    ServesExpr chunk calls env hosts senv e := by
  induction hprintable generalizing ty with
  | const htimer hentity => exact serves_const hcalls htimer hentity
  | var name => exact serves_var henv name
  | member field _ ih =>
    obtain ⟨t, hinner, -⟩ := inferIn_member.1 h
    exact serves_member hcalls field (ih hinner)
  | unary op _ ih =>
    obtain ⟨t, hinner, -⟩ := inferIn_unary.1 h
    exact serves_unary hcalls op (ih hinner)
  | @binary left right op _ _ ihl ihr =>
    obtain ⟨l, r, hl, hr, hop⟩ := inferIn_binary.1 h
    have hterm : ofExpr (.binary op left right) = ofOperator (.op op) (ofExpr left) (ofExpr right) := by
      rw [ofExpr, Expr.phrase, Phrase.simplify_chain]
      rfl
    unfold ServesExpr
    rw [hterm, Expr.eval]
    refine serves_ofOperator (by simp) (by simp) (ihl hl) (ihr hr) fun a b ha hb => ?_
    rw [← type_of_eval hl hscope ha, ← type_of_eval hr hscope hb] at hop
    exact Datum.operate?_binary hop
  | call func _ _ ih =>
    obtain ⟨tys, hargs, htype⟩ := inferIn_call.1 h
    refine serves_apply hcalls hargs htype hscope fun e he => ?_
    obtain ⟨t, -, hety⟩ := hargs.exists_of_mem_left he
    exact ih e he hety
  | @branch cond yes no _ _ _ ihc ihy ihn =>
    obtain ⟨hc, hy, hn⟩ := inferIn_branch.1 h
    have hterm : ofExpr (.branch cond yes no) = ofDecided (ofExpr cond) (ofExpr yes) (ofExpr no) :=
      Phrase.simplify_choice cond.phrase (Phrase.simplifies yes.phrase) (Phrase.simplifies no.phrase)
    unfold ServesExpr
    rw [hterm, Expr.eval]
    exact serves_ofDecided (ihc hc) (ihy hy) (ihn hn) fun v hv =>
      Value.exists_bool (type_of_eval hc hscope hv)

end Term

end Barrage
