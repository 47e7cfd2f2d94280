import Barrage.Proofs.Expr.LinearRun

/-!
# Environments that lack names

A name may stand for nothing, as that of a binding which was left out does. The types of an expression
then speak of the values that its names do have: what lacks can be filled up with any values, and the
expression goes the same way as long as it reads none of them.

## Main definitions

* `Expr.Env.Fits` — environments whose values have the types of a scope, which may know more names

## Main results

* `Expr.type_of_eval` — the type of a value, in an environment that lacks some names
-/

namespace Barrage

namespace Expr

variable {scope : Scope} {env : Env} {ty : ValueType} {order : FloatOrder} {hosts : Hosts}

/-- Every value of the environment has the type that the scope has for its name. -/
def Env.Fits (env : Env) (scope : Scope) : Prop :=
  ∀ x v, env.lookup x = some v → scope.lookup x = some v.type

/-- Some value of a type. -/
def defaultValue : ValueType → Value
  | .float => .float 0.0
  | .int => .int 0
  | .bool => .bool false
  | .vec2 => .vec2 Vec2.zero
  | .timer => .timer ⟨0, ""⟩
  | .entity => .entity ⟨0, ""⟩

theorem type_defaultValue (ty : ValueType) : (defaultValue ty).type = ty := by cases ty <;> rfl

/-- The value of a name in an environment if it has the type, and some value of the type otherwise. -/
def valueOr (env : Env) (x : String) (ty : ValueType) : Value :=
  match env.lookup x with
  | some v => if v.type = ty then v else defaultValue ty
  | none => defaultValue ty

theorem type_valueOr (env : Env) (x : String) (ty : ValueType) : (valueOr env x ty).type = ty := by
  unfold valueOr
  split
  · split
    · assumption
    · exact type_defaultValue ty
  · exact type_defaultValue ty

/-- An environment that fits a scope can be filled up. -/
theorem Env.Fits.exists_typed (h : env.Fits scope) :
    ∃ env' : Env, env'.Typed scope ∧ env.Le env' := by
  refine ⟨scope.map fun b => (b.1, valueOr env b.1 b.2), ?_, fun x v hx => ?_⟩
  · refine List.forall₂_map_left_iff.2 (List.forall₂_same.2 fun b _ => ⟨rfl, ?_⟩)
    exact type_valueOr env b.1 b.2
  · have hlookup : ∀ (scope : Scope), scope.lookup x = some v.type →
        (scope.map fun b => (b.1, valueOr env b.1 b.2)).lookup x = some v := by
      intro scope
      induction scope with
      | nil => exact fun hx => nomatch hx
      | cons b scope ih =>
        obtain ⟨y, ty⟩ := b
        rw [List.map_cons, lookup_cons_ite, lookup_cons_ite]
        intro hty
        split at hty
        · rename_i heq
          cases heq
          cases hty
          simp [valueOr, hx]
        · rw [if_neg ‹_›]
          exact ih hty
    exact hlookup scope (h x v hx)

/-- The value of a well-typed expression has its type, also where names are missing. -/
theorem type_of_eval {e : Expr} (h : inferIn scope e = .ok ty) (henv : env.Fits scope) {v : Value}
    (hv : eval order hosts env e = .ok v) : v.type = ty := by
  obtain ⟨env', htyped, hle⟩ := henv.exists_typed
  have hmono := eval_mono (P := fun _ => True) hle (by rw [hv]; trivial)
  have hyields : Yields ty (eval order hosts env' e) := eval_yields h htyped
  rw [hmono, hv] at hyields
  exact hyields

end Expr

end Barrage
