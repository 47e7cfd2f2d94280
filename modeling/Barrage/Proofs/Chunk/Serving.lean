import Barrage.Proofs.Chunk.Running
import Barrage.Proofs.Chunk.Simplifying
import Barrage.Proofs.Expr.FittingEnvironments
import Barrage.Proofs.Expr.LinearTypes

/-!
# Serving expressions

The parts of a simplified unit serve the evaluations of the parts of an expression, with the tolerant
comparisons of floats. The serving language joins the operands of a chain two at a time as it goes, while
an expression evaluates all of them first; since both do nothing but give a value or fail, the difference
shows in which error is met first and nowhere else.

## Main definitions

* `Chunk.printedFunctions` — the functions that printed units call
* `Term.decidedBy` — what two operands come to of which the first may decide
* `Term.ServesExpr` — that what an expression is read as serves its evaluation

## Main results

* `Term.serves_ofOperator`, `Term.serves_deciding`, `Term.serves_call` — terms serve what their parts do
* `Term.serves_foldl` — operands that are joined two at a time
-/

namespace Barrage

open Chunk Barrage.Expr

namespace Chunk

/-- The functions that printed expressions call. -/
def printedFunctions : List String :=
  Func.all.map Func.name ++ Member.all.map Member.getter ++ ["neg", "not", "float_inf", "float_nan"]

end Chunk

namespace Term

variable {chunk : Chunk} {calls : Calls} {env : Env} {hosts : Hosts} {t left right : Term}

/-- A chunk whose calls of printed functions are those of the functions that every chunk can call. -/
def Calls.Plain (calls : Calls) : Prop :=
  ∀ name ∈ printedFunctions, ∀ args, calls.function name none args = native name args

/-! ### Literals and operators -/

theorem eval_of_literal? {d : Datum} (h : t.literal? = some d) : eval chunk calls env t = pure d := by
  cases t <;> cases h <;> simp only [eval, Datum.ofBool]

theorem eval_literal? {d : Datum} (h : d.literal? = some t) : eval chunk calls env t = pure d := by
  unfold Datum.literal? at h
  split at h <;> cases h <;> simp only [eval, Datum.ofBool]

/-- Computing an operator beforehand changes nothing. -/
theorem eval_ofOperator {op : Operator} (hand : op ≠ .func .and) (hor : op ≠ .func .or) :
    eval chunk calls env (ofOperator op left right) = (do
      let l ← eval chunk calls env left
      let r ← eval chunk calls env right
      ofOption (Datum.operate? op l r)) := by
  unfold ofOperator
  cases hcomputed : (do
      let a ← left.literal?
      let b ← right.literal?
      (← Datum.operate? op a b).literal?) with
  | none =>
    simp only [Option.getD_none]
    rw [eval]
    · exact hand
    · exact hor
  | some t =>
    simp only [Option.bind_eq_bind, Option.bind_eq_some_iff] at hcomputed
    obtain ⟨a, ha, b, hb, d, hd, ht⟩ := hcomputed
    simp only [Option.getD_some]
    rw [eval_of_literal? ha, eval_of_literal? hb, eval_literal? ht, pure_bind, pure_bind, hd]
    rfl

/-- An operator serves what it does with the values of its operands. -/
theorem serves_ofOperator {op : Operator} (hand : op ≠ .func .and) (hor : op ≠ .func .or)
    {rl rr : Except EvalError Value} {f : Value → Value → Except EvalError Value}
    (hleft : Serves hosts (eval chunk calls env left) Datum.value rl)
    (hright : Serves hosts (eval chunk calls env right) Datum.value rr)
    (hop : ∀ a b, rl = .ok a → rr = .ok b →
      Datum.operate? op (.value a) (.value b) = (f a b).toOption.map Datum.value) :
    Serves hosts (eval chunk calls env (ofOperator op left right)) Datum.value
      (rl >>= fun a => rr >>= fun b => f a b) := by
  rw [eval_ofOperator hand hor]
  exact hleft.bind fun a ha => hright.bind fun b hb => serves_ofOption (hop a b ha hb)

/-! ### Conjunctions and disjunctions -/

/-- The operator that decides by its first operand if that equals `short`. -/
def deciding (short : Bool) : Operator := if short then .func .or else .func .and

/-- What two operands come to of which the first may decide. -/
def decidedBy (short : Bool) (first second : Except EvalError Value) : Except EvalError Value := do
  let v ← first
  if (← v.toBool) = short then .ok (.bool short)
  else do
    let w ← second
    .ok (.bool (← w.toBool))

/-- Evaluations that give truth values if they give anything. -/
def GivesBool (r : Except EvalError Value) : Prop := ∀ v, r = .ok v → ∃ b, v = .bool b

theorem decidedBy_short (short : Bool) (r : Except EvalError Value) :
    decidedBy short (.ok (.bool short)) r = .ok (.bool short) := by
  cases short <;> rfl

theorem decidedBy_of_ne {short b : Bool} (hb : b ≠ short) {r : Except EvalError Value}
    (hr : GivesBool r) : decidedBy short (.ok (.bool b)) r = r := by
  have hpass : decidedBy short (.ok (.bool b)) r = r >>= fun w => w.toBool >>= fun c => .ok (.bool c) := by
    cases short <;> cases b <;> first | rfl | exact absurd rfl hb
  rw [hpass]
  cases r with
  | error e => rfl
  | ok w =>
    obtain ⟨c, rfl⟩ := hr w rfl
    rfl

/-- What is left of a conjunction or disjunction. -/
theorem joined_deciding_cases (short : Bool) (left right : Term) :
    (left = bool (!short) ∧ joined (deciding short) left right = right) ∨
      (left = bool short ∧ joined (deciding short) left right = bool short) ∨
      (right = bool (!short) ∧ joined (deciding short) left right = left) ∨
      (right = bool short ∧ left.isConstant = true ∧ joined (deciding short) left right = bool short) ∨
      joined (deciding short) left right = binary (deciding short) left right := by
  cases short with
  | true =>
    change (_ ∧ disjunction left right = _) ∨ (_ ∧ disjunction left right = _) ∨
      (_ ∧ disjunction left right = _) ∨ (_ ∧ _ ∧ disjunction left right = _) ∨
      disjunction left right = _
    unfold disjunction
    split
    · exact .inl ⟨rfl, rfl⟩
    · exact .inr (.inl ⟨rfl, rfl⟩)
    · exact .inr (.inr (.inl ⟨rfl, rfl⟩))
    · by_cases hconstant : left.isConstant = true
      · exact .inr (.inr (.inr (.inl ⟨rfl, hconstant, if_pos hconstant⟩)))
      · exact .inr (.inr (.inr (.inr (if_neg hconstant))))
    · exact .inr (.inr (.inr (.inr rfl)))
  | false =>
    change (_ ∧ conjunction left right = _) ∨ (_ ∧ conjunction left right = _) ∨
      (_ ∧ conjunction left right = _) ∨ (_ ∧ _ ∧ conjunction left right = _) ∨
      conjunction left right = _
    unfold conjunction
    split
    · exact .inl ⟨rfl, rfl⟩
    · exact .inr (.inl ⟨rfl, rfl⟩)
    · exact .inr (.inr (.inl ⟨rfl, rfl⟩))
    · by_cases hconstant : left.isConstant = true
      · exact .inr (.inr (.inr (.inl ⟨rfl, hconstant, if_pos hconstant⟩)))
      · exact .inr (.inr (.inr (.inr (if_neg hconstant))))
    · exact .inr (.inr (.inr (.inr rfl)))

theorem eval_binary_deciding (short : Bool) :
    eval chunk calls env (binary (deciding short) left right) = (do
      let b ← truth (← eval chunk calls env left)
      if b = short then return Datum.ofBool short
      else return Datum.ofBool (← truth (← eval chunk calls env right))) := by
  cases short with
  | true =>
    change eval chunk calls env (binary (.func .or) left right) = _
    rw [eval]
  | false =>
    change eval chunk calls env (binary (.func .and) left right) = _
    rw [eval]
    refine congrArg _ (funext fun d => congrArg _ (funext fun b => ?_))
    cases b <;> rfl

theorem serves_unbound {α β : Type} {run : Run β} {conv : α → β} (slot : Nat) :
    Serves hosts run conv (.error (.unboundSlot slot)) :=
  fun h => absurd rfl (h slot)

/-- A literal serves its value, or an evaluation of which nothing is known. -/
theorem eq_of_serves_pure {d : Datum} {r : Except EvalError Value}
    (h : Serves hosts (pure d : Run Datum) Datum.value r) :
    (∃ v, r = .ok v ∧ d = .value v) ∨ ∃ slot, r = .error (.unboundSlot slot) := by
  cases r with
  | ok v =>
    have hrun : ((Except.ok d : Except Halt Datum), hosts) = (.ok (.value v), hosts) := h
    cases hrun
    exact .inl ⟨v, rfl, rfl⟩
  | error e =>
    by_cases hslot : ∃ slot, e = .unboundSlot slot
    · obtain ⟨slot, rfl⟩ := hslot
      exact .inr ⟨slot, rfl⟩
    · rw [not_exists] at hslot
      have hrun : ((Except.ok d : Except Halt Datum), hosts) = (.error .fault, hosts) := h hslot
      cases hrun

theorem eq_of_serves_bool {b : Bool} {r : Except EvalError Value}
    (h : Serves hosts (eval chunk calls env (bool b)) Datum.value r) :
    r = .ok (.bool b) ∨ ∃ slot, r = .error (.unboundSlot slot) := by
  rw [eval] at h
  rcases eq_of_serves_pure h with ⟨v, rfl, hv⟩ | hslot
  · cases hv
    exact .inl rfl
  · exact .inr hslot

theorem serves_bool (b : Bool) :
    Serves hosts (eval chunk calls env (bool b)) Datum.value (.ok (.bool b)) := by
  rw [eval]
  rfl

/-- Dropping a truth value that does not decide, and whatever stands behind one that does, changes
nothing. -/
theorem serves_deciding {short : Bool} {rl rr : Except EvalError Value}
    (hleft : Serves hosts (eval chunk calls env left) Datum.value rl)
    (hright : Serves hosts (eval chunk calls env right) Datum.value rr)
    (hl : GivesBool rl) (hr : GivesBool rr) :
    Serves hosts (eval chunk calls env (joined (deciding short) left right)) Datum.value
      (decidedBy short rl rr) := by
  rcases joined_deciding_cases short left right with ⟨rfl, hjoined⟩ | ⟨rfl, hjoined⟩ | ⟨rfl, hjoined⟩ |
      ⟨rfl, hconstant, hjoined⟩ | hjoined
  all_goals rw [hjoined]
  · -- The first operand does not decide, so the second one is the result.
    rcases eq_of_serves_bool hleft with rfl | ⟨slot, rfl⟩
    · rw [decidedBy_of_ne (by simp) hr]
      exact hright
    · exact serves_unbound slot
  · -- The first operand decides.
    rcases eq_of_serves_bool hleft with rfl | ⟨slot, rfl⟩
    · rw [decidedBy_short]
      exact serves_bool short
    · exact serves_unbound slot
  · -- The second operand leaves the first one as it is.
    cases rl with
    | error e => exact hleft
    | ok v =>
      obtain ⟨b, rfl⟩ := hl v rfl
      by_cases hb : b = short
      · subst hb
        rw [decidedBy_short]
        exact hleft
      · rw [decidedBy_of_ne hb hr]
        rcases eq_of_serves_bool hright with rfl | ⟨slot, rfl⟩
        · obtain rfl : b = !short := by cases short <;> cases b <;> first | rfl | exact absurd rfl hb
          exact hleft
        · exact serves_unbound slot
  · -- Both operands are literals, and the second one decides if the first one does not.
    obtain ⟨d, hd⟩ : ∃ d, left.literal? = some d := by
      cases left <;> first | exact ⟨_, rfl⟩ | cases hconstant
    rw [eval_of_literal? hd] at hleft
    rcases eq_of_serves_pure hleft with ⟨v, rfl, -⟩ | ⟨slot, rfl⟩
    · obtain ⟨b, rfl⟩ := hl v rfl
      by_cases hb : b = short
      · subst hb
        rw [decidedBy_short]
        exact serves_bool b
      · rw [decidedBy_of_ne hb hr]
        exact hright
    · exact serves_unbound slot
  · -- Nothing is dropped.
    rw [eval_binary_deciding]
    refine hleft.bind fun v hv => ?_
    obtain ⟨b, rfl⟩ := hl v hv
    change Serves hosts (if b = short then _ else _) Datum.value (if b = short then _ else _)
    split
    · rfl
    · refine hright.bind fun w hw => ?_
      obtain ⟨c, rfl⟩ := hr w hw
      rfl

/-! ### Calls -/

theorem invoke_printed {name : String} (h : name ∈ printedFunctions) (args : List Datum) :
    invoke chunk calls env name args = calls.function name none args := by
  unfold invoke
  split <;> first | rfl | exact absurd h (by decide)

theorem ofCall_printed {name : String} (h : name ∈ printedFunctions) (args : List Term) :
    ofCall name args = call name args := by
  unfold ofCall
  split <;> first | rfl | exact absurd h (by decide)

/-- A call serves what the function does with the values of its arguments. -/
theorem serves_call (hcalls : calls.Plain) {name : String} (hname : name ∈ printedFunctions)
    {args : List Term} {rs : Except EvalError (List Value)} {f : List Value → Except EvalError Value}
    (hargs : Serves hosts (evalList chunk calls env args) (List.map Datum.value) rs)
    (hnative : ∀ vs, rs = .ok vs → pureNative hosts name vs = some (f vs)) :
    Serves hosts (eval chunk calls env (ofCall name args)) Datum.value (rs >>= f) := by
  have hgeneral : ∀ name ∈ printedFunctions, name ∉ generalFunctions := by decide
  rw [ofCall_printed hname, eval]
  refine hargs.bind fun vs hvs => ?_
  rw [invoke_printed hname, hcalls name hname]
  exact serves_native (hgeneral name hname) (hnative vs hvs)

/-! ### Joining operands two at a time -/

/-- Steps of joining operands: they give whole numbers for whole numbers only, and read no name. -/
structure Joins (step : Value → Value → Except EvalError Value) : Prop where
  int_iff : ∀ a b c, step a b = .ok c → (a.type = .int ↔ b.type = .int) → (c.type = .int ↔ a.type = .int)
  bound : ∀ a b e, step a b = .error e → ∀ slot, e ≠ .unboundSlot slot

/-- The simplified term of an expression. -/
def ofExpr (e : Expr) : Term := e.phrase.term.simplify

variable {senv : Expr.Env}

/-- What an expression is read as serves its evaluation. -/
def ServesExpr (chunk : Chunk) (calls : Calls) (env : Env) (hosts : Hosts) (senv : Expr.Env) (e : Expr) :
    Prop :=
  Serves hosts (eval chunk calls env (ofExpr e)) Datum.value (Expr.eval .tolerant hosts senv e)

theorem serves_evalList {es : List Expr} (h : ∀ e ∈ es, ServesExpr chunk calls env hosts senv e) :
    Serves hosts (evalList chunk calls env (es.map ofExpr)) (List.map Datum.value)
      (Expr.evalList .tolerant hosts senv es) := by
  induction es with
  | nil =>
    rw [List.map_nil, evalList]
    rfl
  | cons e es ih =>
    rw [List.forall_mem_cons] at h
    rw [List.map_cons, evalList]
    exact h.1.bind fun v _ => (ih h.2).bind fun vs _ => rfl

section Early

variable {step : Value → Value → Except EvalError Value} {r s : Except EvalError Value}
  {rs : Except EvalError (List Value)}

/-- Joining an operand before the others are evaluated gives the value that joining it after them does. -/
theorem joinWith_early_ok {v : Value}
    (h : (r >>= fun a => (s >>= fun b => rs >>= fun bs => .ok (b :: bs)) >>= fun vs =>
      Func.joinWith step a vs) = .ok v) :
    ((r >>= fun a => s >>= fun b => step a b) >>= fun a => rs >>= fun vs =>
      Func.joinWith step a vs) = .ok v := by
  cases r with
  | error e => cases h
  | ok a =>
    cases s with
    | error e => cases h
    | ok b =>
      cases rs with
      | error e => cases h
      | ok bs => exact h

/-- Joining an operand before the others are evaluated fails if joining it after them does. -/
theorem joinWith_early_error (hstep : Joins step) {err : EvalError} (hne : ∀ slot, err ≠ .unboundSlot slot)
    (h : (r >>= fun a => (s >>= fun b => rs >>= fun bs => .ok (b :: bs)) >>= fun vs =>
      Func.joinWith step a vs) = .error err) :
    ∃ err', ((r >>= fun a => s >>= fun b => step a b) >>= fun a => rs >>= fun vs =>
      Func.joinWith step a vs) = .error err' ∧ ∀ slot, err' ≠ .unboundSlot slot := by
  cases r with
  | error e => exact ⟨err, h, hne⟩
  | ok a =>
    cases s with
    | error e => exact ⟨err, h, hne⟩
    | ok b =>
      cases rs with
      | ok bs => exact ⟨err, h, hne⟩
      | error e =>
        -- The operands behind this one fail, but the join may have failed before.
        cases hjoin : step a b with
        | ok c =>
          refine ⟨err, ?_, hne⟩
          change (step a b >>= fun _ => Except.error e) = _
          rw [hjoin]
          exact h
        | error e' =>
          refine ⟨e', ?_, hstep.bound a b e' hjoin⟩
          change (step a b >>= fun _ => Except.error e) = _
          rw [hjoin]
          rfl

end Early

/-- Operands joined two at a time serve operands that are evaluated before any of them is joined. -/
theorem serves_foldl {node : Term → Term → Term} {step : Value → Value → Except EvalError Value}
    {ints : Prop}
    (hnode : ∀ {l r : Term} {rl rr : Except EvalError Value},
      Serves hosts (eval chunk calls env l) Datum.value rl →
      Serves hosts (eval chunk calls env r) Datum.value rr →
      (∀ a b, rl = .ok a → rr = .ok b → (a.type = .int ↔ b.type = .int)) →
      Serves hosts (eval chunk calls env (node l r)) Datum.value
        (rl >>= fun a => rr >>= fun b => step a b))
    (hstep : Joins step) {es : List Expr} (hes : ∀ e ∈ es, ServesExpr chunk calls env hosts senv e)
    (htypes : ∀ e ∈ es, ∀ v, Expr.eval .tolerant hosts senv e = .ok v → (v.type = .int ↔ ints))
    {t : Term} {r : Except EvalError Value} (ht : Serves hosts (eval chunk calls env t) Datum.value r)
    (htype : ∀ v, r = .ok v → (v.type = .int ↔ ints)) :
    Serves hosts (eval chunk calls env ((es.map ofExpr).foldl node t)) Datum.value
      (r >>= fun a => Expr.evalList .tolerant hosts senv es >>= fun vs => Func.joinWith step a vs) := by
  induction es generalizing t r with
  | nil =>
    have hnil : (r >>= fun a => Expr.evalList .tolerant hosts senv [] >>= fun vs =>
        Func.joinWith step a vs) = r := by
      cases r <;> rfl
    rw [hnil]
    exact ht
  | cons e es ih =>
    obtain ⟨he, hrest⟩ := List.forall_mem_cons.1 hes
    obtain ⟨hety, hrestTypes⟩ := List.forall_mem_cons.1 htypes
    have hjoined : Serves hosts (eval chunk calls env (node t (ofExpr e))) Datum.value
        (r >>= fun a => Expr.eval .tolerant hosts senv e >>= fun b => step a b) :=
      hnode ht he fun a b ha hb => (htype a ha).trans (hety b hb).symm
    have hjoinedType : ∀ c, (r >>= fun a => Expr.eval .tolerant hosts senv e >>= fun b => step a b) =
        .ok c → (c.type = .int ↔ ints) := by
      intro c hc
      obtain ⟨a, ha, hc⟩ := Except.bind_eq_ok_iff.1 hc
      obtain ⟨b, hb, hc⟩ := Except.bind_eq_ok_iff.1 hc
      exact (hstep.int_iff a b c hc ((htype a ha).trans (hety b hb).symm)).trans (htype a ha)
    have hall := ih hrest hrestTypes hjoined hjoinedType
    rw [List.map_cons, List.foldl_cons, Expr.evalList]
    exact hall.congr (fun v hv => joinWith_early_ok hv) fun err herr hne =>
      joinWith_early_error hstep hne herr

end Term

end Barrage
