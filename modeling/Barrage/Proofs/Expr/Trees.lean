import Mathlib.Data.List.Forall2
import Barrage.Expr.Eval

/-!
# Induction over trees, and computations that may fail

Every claim about expressions goes by induction over trees. A call holds a list of trees, so the
hypothesis for a call speaks of each of its arguments.

A computation on values ends in a value or in a fault. Of all faults only two can come out of an
operation on operands of the right types: a division by zero, and a whole number that left its word.
`Except.Satisfies` says that a computation ends in one of these or in a result with some property; it
passes through sequencing, so a proof about a composed computation is put together from its parts.

## Main definitions

* `EvalError.isArithmetic` — the faults that operands of the right types can cause
* `Except.Satisfies` — a property of the result, up to arithmetic faults

## Main results

* `Expr.treeInduction` — induction over trees
* `Except.Satisfies.bind` — sequencing
-/

namespace Barrage

namespace Expr

/-- Induction over trees; for a call, the property is known of all arguments. -/
@[elab_as_elim]
theorem treeInduction {motive : Expr → Prop}
    (const : ∀ value, motive (const value))
    (var : ∀ name, motive (var name))
    (member : ∀ inner field, motive inner → motive (member inner field))
    (unary : ∀ op inner, motive inner → motive (unary op inner))
    (binary : ∀ op left right, motive left → motive right → motive (binary op left right))
    (call : ∀ func args, (∀ e ∈ args, motive e) → motive (call func args))
    (branch : ∀ cond yes no, motive cond → motive yes → motive no → motive (branch cond yes no))
    (bind : ∀ name value body, motive value → motive body → motive (bind name value body))
    : ∀ e, motive e
  | .const value => const value
  | .var name => var name
  | .member inner field =>
    member inner field (treeInduction const var member unary binary call branch bind inner)
  | .unary op inner =>
    unary op inner (treeInduction const var member unary binary call branch bind inner)
  | .binary op left right =>
    binary op left right (treeInduction const var member unary binary call branch bind left)
      (treeInduction const var member unary binary call branch bind right)
  | .call func args =>
    call func args fun e _ => treeInduction const var member unary binary call branch bind e
  | .branch cond yes no =>
    branch cond yes no (treeInduction const var member unary binary call branch bind cond)
      (treeInduction const var member unary binary call branch bind yes)
      (treeInduction const var member unary binary call branch bind no)
  | .bind name value body =>
    bind name value body (treeInduction const var member unary binary call branch bind value)
      (treeInduction const var member unary binary call branch bind body)
termination_by e => sizeOf e
decreasing_by
  all_goals
    try have := List.sizeOf_lt_of_mem ‹_ ∈ args›
    simp
    try omega

end Expr

/-- The faults that an operation on operands of the right types can end in. -/
def EvalError.isArithmetic : EvalError → Prop
  | divideByZero | overflow _ => True
  | _ => False

end Barrage

namespace Except

open Barrage

variable {ε α β : Type} {P : α → Prop} {Q : β → Prop}

@[simp] theorem ok_bind (a : α) (f : α → Except ε β) : (ok a >>= f) = f a := rfl

@[simp] theorem error_bind (e : ε) (f : α → Except ε β) : (error e >>= f) = error e := rfl

/-- A sequence gives a result if both parts do. -/
theorem bind_eq_ok_iff {r : Except ε α} {f : α → Except ε β} {b : β} :
    r >>= f = ok b ↔ ∃ a, r = ok a ∧ f a = ok b := by
  cases r <;> simp

theorem mapError_eq_ok_iff {δ : Type} {f : ε → δ} {r : Except ε α} {a : α} : r.mapError f = ok a ↔ r = ok a := by
  cases r <;> simp [Except.mapError]

/-- A computation ends in a result with a property, or in an arithmetic fault. -/
def Satisfies (P : α → Prop) : Except EvalError α → Prop
  | ok a => P a
  | error e => e.isArithmetic

@[simp] theorem satisfies_ok {a : α} : Satisfies P (ok a) ↔ P a := Iff.rfl

@[simp] theorem satisfies_error {e : EvalError} :
    Satisfies P (error e : Except EvalError α) ↔ e.isArithmetic := Iff.rfl

/-- Sequencing keeps to arithmetic faults if both parts do. -/
theorem Satisfies.bind {r : Except EvalError α} {f : α → Except EvalError β} (h : Satisfies P r)
    (hf : ∀ a, P a → Satisfies Q (f a)) : Satisfies Q (r >>= f) := by
  cases r with
  | error e => exact h
  | ok a => exact hf a h

theorem Satisfies.mono {P' : α → Prop} {r : Except EvalError α} (h : Satisfies P r)
    (hP : ∀ a, P a → P' a) : Satisfies P' r := by
  cases r with
  | error e => exact h
  | ok a => exact hP a h

/-- The first part of a sequence ends in no other fault than the whole. -/
theorem Satisfies.of_bind {r : Except EvalError α} {f : α → Except EvalError β}
    (h : (r >>= f).Satisfies Q) : r.Satisfies fun _ => True := by
  cases r with
  | error e => exact h
  | ok a => trivial

/-- Sequences are equal if the parts are that are reached without a fault of another kind. -/
theorem bind_congr {r r' : Except EvalError α} {f f' : α → Except EvalError β}
    (h : (r >>= f).Satisfies Q) (hr : r.Satisfies (fun _ => True) → r' = r)
    (hf : ∀ a, r = ok a → (f a).Satisfies Q → f' a = f a) : r' >>= f' = r >>= f := by
  rw [hr h.of_bind]
  cases r with
  | error e => rfl
  | ok a => exact hf a rfl h

end Except

namespace List.Forall₂

variable {α β : Type} {R S : α → β → Prop} {as : List α} {bs : List β}

/-- Lists related entry by entry are related by what follows for the entries of the first one. -/
theorem imp_of_mem (h : Forall₂ R as bs) (hRS : ∀ a b, a ∈ as → R a b → S a b) :
    Forall₂ S as bs := by
  induction h with
  | nil => exact .nil
  | cons hab _ ih =>
    exact .cons (hRS _ _ (by simp) hab) (ih fun a b ha => hRS a b (by simp [ha]))

theorem exists_of_mem_left (h : Forall₂ R as bs) {a : α} (ha : a ∈ as) : ∃ b ∈ bs, R a b := by
  induction h with
  | nil => cases ha
  | @cons a' b' _ _ hab _ ih =>
    rcases List.mem_cons.1 ha with rfl | ha
    · exact ⟨b', by simp, hab⟩
    · obtain ⟨b, hb, hR⟩ := ih ha
      exact ⟨b, by simp [hb], hR⟩

theorem exists_of_mem_right (h : Forall₂ R as bs) {b : β} (hb : b ∈ bs) : ∃ a ∈ as, R a b := by
  have hflip : Forall₂ (fun b a => R a b) bs as := h.flip
  exact hflip.exists_of_mem_left hb

end List.Forall₂
