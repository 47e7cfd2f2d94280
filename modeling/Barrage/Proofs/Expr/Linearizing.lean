import Barrage.Proofs.Expr.Lifting

/-!
# Linearizing preserves meaning

A linear form comes to the same as its tree: the same value, or a fault of arithmetic on both sides. It
is also as lazy as the tree. A binding is evaluated exactly if the tree computes its value, so one that
fails without being used still fails, and one on a path that is not taken never does.

The environment may hold names that look like made ones. The tree reads none of them, so the run is
followed in the environment without them, and goes the same way in the whole one.

## Main results

* `Expr.linearize_run` — the run of a linear form, if the variables of the tree are not made names
* `Expr.linearize_correct` — value, faults and bindings of the run, for trees whose variables are names
  of the source
-/

namespace Barrage.Expr

variable {order : FloatOrder} {hosts : Hosts} {env : Env}

/-- The names of an environment or a scope that are not made ones. -/
def plain {α : Type} (names : List (String × α)) : List (String × α) :=
  names.filter fun b => (nameKind? b.1).isNone

theorem lookup_plain {α : Type} (names : List (String × α)) (x : String) :
    (plain names).lookup x = if nameKind? x = none then names.lookup x else none := by
  induction names with
  | nil => simp [plain]
  | cons b names ih =>
    obtain ⟨y, a⟩ := b
    unfold plain at ih ⊢
    by_cases hy : nameKind? y = none
    · rw [List.filter_cons_of_pos (by simp [hy]), lookup_cons_ite, lookup_cons_ite, ih]
      by_cases hx : x = y
      · simp [hx, hy]
      · simp [hx]
    · rw [List.filter_cons_of_neg (by simp [hy]), lookup_cons_ite, ih]
      by_cases hx : x = y
      · simp [hx, hy]
      · simp [hx]

theorem Env.Typed.plain {scope : Scope} (h : env.Typed scope) :
    Env.Typed (plain env) (plain scope) := by
  induction h with
  | nil => exact .nil
  | @cons x b env scope hxb _ ih =>
    simp only [Expr.plain, List.filter_cons, ← hxb.1] at ih ⊢
    split
    · exact List.Forall₂.cons hxb ih
    · exact ih

theorem renames_plain {α : Type} (names : List (String × α)) : Renames [] 0 names (plain names) where
  made _ hp := nomatch hp
  lookup {x a} hx ha := by
    change (plain names).lookup x = some a
    rw [lookup_plain, if_pos hx, ha]

theorem freshFrom_plain {α : Type} (names : List (String × α)) : FreshFrom (plain names) 0 0 where
  letName _ := by
    rw [lookup_plain, if_neg]
    simp
  guardName _ := by
    rw [lookup_plain, if_neg]
    simp

theorem plain_le {α : Type} (names : List (String × α)) : Names.Le (plain names) names := by
  intro x v hx
  rw [lookup_plain] at hx
  split at hx
  · exact hx
  · cases hx

/-- A linear form that realizes a tree runs through exactly if the tree evaluates. -/
theorem Realizes.linear_run {l : Linear} {s : Traced Value} {lets guards : Nat}
    (h : Realizes order hosts env l.bindings (fun env' => eval order hosts env' l.result) s lets guards) :
    (∃ v ran, l.run order hosts env = .ok (v, ran) ∧ s = .done v (bindingsOf ran)) ∨
      ∃ e, l.run order hosts env = .error e ∧ e.isArithmetic ∧ ∃ e', s.value = .error e' := by
  unfold Linear.run
  cases h with
  | stops run arithmetic fails =>
    rw [run]
    exact .inr ⟨_, rfl, arithmetic, fails⟩
  | @runs env' ran run le fresh agrees ran_eq =>
    simp only [run, Except.ok_bind]
    have hagrees := agrees env' (.refl env')
    cases hresult : eval order hosts env' l.result with
    | error e =>
      rw [hresult] at hagrees
      obtain ⟨harith, hfails⟩ := hagrees.eq_error rfl
      exact .inr ⟨e, rfl, harith, hfails⟩
    | ok v =>
      rw [hresult] at hagrees
      obtain ⟨done, hs⟩ := Traced.value_eq_ok_iff.1 (hagrees.eq_ok rfl)
      exact .inl ⟨v, ran, rfl, by rw [ran_eq v done hs, hs]⟩

/-- A linear form and its tree come to the same, as long as the variables of the tree are not made names:
both give the same value, and then the run evaluates the bindings that the tree computes; or both end in
an arithmetic fault. -/
theorem linearize_run (order : FloatOrder) (hosts : Hosts) {e : Expr} {scope : Scope}
    {ty : ValueType} (hoisted : List Hoisted)
    (htyped : inferIn scope e = .ok ty) (henv : env.Typed scope)
    (hvars : ∀ x ∈ e.vars, nameKind? x = none) :
    (∃ v ran, (e.linearize hoisted).run order hosts env = .ok (v, ran) ∧
        evalTraced letName order hosts env e 0 = .done v (bindingsOf ran)) ∨
      ∃ err, (e.linearize hoisted).run order hosts env = .error err ∧ err.isArithmetic ∧
        ∃ err', eval order hosts env e = .error err' := by
  have hready : Ready order hosts (plain scope) (plain env) (plain env) [] 0 0 :=
    ⟨henv.plain, .refl _, freshFrom_plain env, rfl⟩
  have hrename : evalTraced ownName order hosts (plain env) (rename [] e 0).1 0 =
      evalTraced letName order hosts env e 0 :=
    evalTraced_rename (eval_yields htyped henv) hvars (renames_plain env) (Nat.le_refl 0)
  have hrealizes := lift_realizes (rename [] e 0).1 0
    (inferIn_rename htyped hvars (renames_plain scope) (Nat.le_refl 0)) (numbered_rename [] e 0) hready
  rw [hrename] at hrealizes
  have hrun := Realizes.linear_run (l := e.linearize hoisted) hrealizes
  have hmono : (e.linearize hoisted).run order hosts env =
      (e.linearize hoisted).run order hosts (plain env) := by
    refine Linear.run_mono (P := fun _ => True) (plain_le env) ?_
    rcases hrun with ⟨v, ran, hrun, -⟩ | ⟨err, hrun, harith, -⟩
    · rw [hrun]
      trivial
    · rw [hrun]
      exact harith
  rw [hmono]
  rcases hrun with hok | ⟨err, hrun, harith, err', herr⟩
  · exact .inl hok
  · refine .inr ⟨err, hrun, harith, err', ?_⟩
    rwa [value_evalTraced] at herr

/-- Linearizing keeps what a tree means and how lazy it is. The run of the linear form gives a value
exactly if the tree does, and then the same one. It never reads a binding that was left out, which would
be no arithmetic fault. And when it gives a value, the bindings it evaluated are those whose values the
tree computes, each of them once. -/
theorem linearize_correct (order : FloatOrder) (hosts : Hosts) {e : Expr} {scope : Scope}
    {ty : ValueType} (hoisted : List Hoisted)
    (htyped : inferIn scope e = .ok ty) (henv : env.Typed scope)
    (hvars : ∀ x ∈ e.vars, hasDoubleUnderscore x.toList = false) :
    (∀ v, (∃ ran, (e.linearize hoisted).run order hosts env = .ok (v, ran)) ↔
        eval order hosts env e = .ok v) ∧
      (∀ err, (e.linearize hoisted).run order hosts env = .error err → err.isArithmetic) ∧
      ∀ v ran, (e.linearize hoisted).run order hosts env = .ok (v, ran) →
        evalTraced letName order hosts env e 0 = .done v (bindingsOf ran) ∧ (bindingsOf ran).Nodup := by
  have hrun := linearize_run order hosts hoisted htyped henv
    fun x hx => nameKind?_of_source (hvars x hx)
  rcases hrun with ⟨v, ran, hrun, hdone⟩ | ⟨err, hrun, harith, err', herr⟩
  · have hvalue : eval order hosts env e = .ok v := by
      rw [← value_evalTraced letName env e 0, hdone]
      rfl
    have hnodup : (bindingsOf ran).Nodup :=
      (letNames_labels e 0).nodup.sublist (sublist_of_evalTraced hdone)
    rw [hrun, hvalue]
    refine ⟨fun w => ?_, fun err herr => (nomatch herr), fun w ran' hok => ?_⟩
    · constructor
      · rintro ⟨ran', hok⟩
        cases hok
        rfl
      · intro hok
        cases hok
        exact ⟨ran, rfl⟩
    · cases hok
      exact ⟨hdone, hnodup⟩
  · rw [hrun, herr]
    refine ⟨fun w => ?_, fun err'' heq => ?_, fun w ran hok => (nomatch hok)⟩
    · constructor
      · rintro ⟨ran, hok⟩
        cases hok
      · intro hok
        cases hok
    · cases heq
      exact harith

/-- A quotient by zero on the side that is not taken is not evaluated, and the run gives the other side. -/
theorem linearize_correct_untaken :
    ∃ ran, ((branch (var "b") (bind "x" (binary .div (const (.int 1)) (const (.int 0))) (var "x"))
        (const (.int 2))).linearize []).run .exact Hosts.empty [("b", .bool false)] =
          .ok (.int 2, ran) ∧ bindingsOf ran = [] := by
  have htyped : inferIn [("b", .bool)] (branch (var "b")
      (bind "x" (binary .div (const (.int 1)) (const (.int 0))) (var "x")) (const (.int 2))) =
        .ok .int := rfl
  have henv : Env.Typed [("b", .bool false)] [("b", .bool)] :=
    List.Forall₂.cons ⟨rfl, rfl⟩ .nil
  obtain ⟨hvalue, -, htrace⟩ := linearize_correct .exact Hosts.empty [] htyped henv
    (by decide)
  obtain ⟨ran, hran⟩ := (hvalue (.int 2)).2 rfl
  injection (htrace _ _ hran).1 with _ hdone
  exact ⟨ran, hran, hdone.symm⟩

end Barrage.Expr
