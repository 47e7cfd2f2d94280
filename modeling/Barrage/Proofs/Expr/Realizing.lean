import Barrage.Proofs.Expr.LinearRun

/-!
# Parts of a tree and the bindings lifted out of them

Lifting takes a part of a tree to some bindings and a rest without bindings. The bindings are run at the
front, together with those of all other parts, and the rest is evaluated much later; a fault in the rest
of one part therefore shows up after the bindings of the parts behind it have run. So what is kept is
not the order of faults but whether there is one. `Realizes` states it for one part, whatever larger
environment the rest is evaluated in, and its lemmas put parts together.

A part whose value later conditions depend on is held under a name as soon as its bindings have run.
`Pins` states this: unless the run stops, the name stands for the value of the part from then on.

## Main definitions

* `Except.Agrees` — computations that come to the same, up to the kind of arithmetic fault
* `Expr.FreshFrom` — the made names that are still free
* `Expr.Realizes` — running the bindings of a part and evaluating its rest comes to the part
* `Expr.Pins` — running the bindings of a part leaves its value under a name

## Main results

* `Expr.Realizes.append`, `Expr.Realizes.andThen`, `Expr.Pins.andThen` — parts put together
* `Expr.Realizes.pin` — the value of a part is held by a binding
* `Expr.Realizes.append_skip`, `Expr.Realizes.skip_append` — bindings that are left out
-/

namespace Except

open Barrage

variable {α β : Type} {P : α → Prop}

/-- Two computations that both give the same result, or both end in an arithmetic fault. -/
def Agrees : Except EvalError α → Except EvalError α → Prop
  | ok a, ok b => a = b
  | error e, error e' => e.isArithmetic ∧ e'.isArithmetic
  | _, _ => False

theorem Satisfies.agrees {r : Except EvalError α} (h : r.Satisfies P) : r.Agrees r := by
  cases r with
  | error e => exact ⟨h, h⟩
  | ok a => rfl

theorem agrees_ok_iff {r : Except EvalError α} {a : α} : r.Agrees (ok a) ↔ r = ok a := by
  cases r <;> simp [Agrees]

/-- A fault on one side is one on the other side. -/
theorem Agrees.eq_error {r s : Except EvalError α} {e : EvalError} (h : r.Agrees s)
    (hr : r = error e) : e.isArithmetic ∧ ∃ e', s = error e' := by
  subst hr
  cases s with
  | error e' => exact ⟨h.1, e', rfl⟩
  | ok a => exact h.elim

theorem Agrees.eq_ok {r s : Except EvalError α} {a : α} (h : r.Agrees s) (hr : r = ok a) :
    s = ok a := by
  subst hr
  cases s with
  | error e' => exact h.elim
  | ok b => exact congrArg ok (Eq.symm h)

theorem Agrees.bind {r s : Except EvalError α} {f g : α → Except EvalError β} (h : r.Agrees s)
    (hfg : ∀ a, s = ok a → (f a).Agrees (g a)) : (r >>= f).Agrees (s >>= g) := by
  cases s with
  | error e' =>
    cases r with
    | error e => exact h
    | ok a => exact h.elim
  | ok a =>
    rw [agrees_ok_iff.1 h]
    exact hfg a rfl

end Except

namespace Barrage.Expr

/-! ### Fresh names -/

/-- From these numbers on no made name stands for anything. -/
structure FreshFrom {α : Type} (names : List (String × α)) (lets guards : Nat) : Prop where
  letName : ∀ {source number}, lets ≤ number → names.lookup (letName source number) = none
  guardName : ∀ {number}, guards ≤ number → names.lookup (guardName number) = none

namespace FreshFrom

variable {α : Type} {names : List (String × α)} {lets lets' guards guards' : Nat}

theorem mono (h : FreshFrom names lets guards) (hl : lets ≤ lets') (hg : guards ≤ guards') :
    FreshFrom names lets' guards' where
  letName hle := h.letName (by omega)
  guardName hle := h.guardName (by omega)

theorem cons_letName (h : FreshFrom names lets guards) (source : String) (a : α) :
    FreshFrom ((Barrage.letName source lets, a) :: names) (lets + 1) guards where
  letName {source' number} hle := by
    rw [lookup_cons_ite, if_neg, h.letName (by omega)]
    intro heq
    have := letName_injective heq
    omega
  guardName {number} hle := by
    rw [lookup_cons_ite, if_neg letName_ne_guardName.symm, h.guardName hle]

theorem cons_guardName (h : FreshFrom names lets guards) (a : α) :
    FreshFrom ((Barrage.guardName guards, a) :: names) lets (guards + 1) where
  letName {source number} hle := by
    rw [lookup_cons_ite, if_neg letName_ne_guardName, h.letName hle]
  guardName {number} hle := by
    rw [lookup_cons_ite, if_neg, h.guardName (by omega)]
    intro heq
    have := guardName_injective heq
    omega

end FreshFrom

/-! ### What running the lifted bindings achieves -/

/-- The bindings of the tree among some names, without the conditions. -/
def bindingsOf (ran : List String) : List String :=
  ran.filter fun name => nameKind? name = some .binding

theorem bindingsOf_append (ran more : List String) :
    bindingsOf (ran ++ more) = bindingsOf ran ++ bindingsOf more :=
  List.filter_append ..

variable {α β : Type}

/-- What running some bindings has to do with a part of a tree, of which `s` is the evaluation. Either
the run stops, and then the part does not evaluate; or it goes through, and then the rest `result` of
the part comes to the same as the part, and the bindings of the part that were evaluated are those that
its evaluation computes. Made names from `lets` and `guards` on are still free afterwards. -/
inductive Realizes (order : FloatOrder) (hosts : Hosts) (env : Env) (bs : List Binding)
    (result : Env → Except EvalError α) (s : Traced α) (lets guards : Nat) : Prop where
  | stops {e : EvalError} (run : Binding.runAll order hosts env bs = .error e)
    (arithmetic : e.isArithmetic) (fails : ∃ e', s.value = .error e')
  | runs {env' : Env} {ran : List String} (run : Binding.runAll order hosts env bs = .ok (env', ran))
    (le : env.Le env') (fresh : FreshFrom env' lets guards)
    (agrees : ∀ env'', env'.Le env'' → (result env'').Agrees s.value)
    (ran_eq : ∀ a done, s = .done a done → bindingsOf ran = done)

/-- Bindings that compute a part of a tree and hold its value under a name or a constant: the run stops
and the part does not evaluate, or `test` stands for the value of the part from then on. Of the tree's
bindings, those of the part were evaluated, and then `extra`. -/
inductive Pins (order : FloatOrder) (hosts : Hosts) (env : Env) (bs : List Binding) (test : Expr)
    (s : Traced Value) (extra : List String) (lets guards : Nat) : Prop where
  | stops {e : EvalError} (run : Binding.runAll order hosts env bs = .error e)
    (arithmetic : e.isArithmetic) (fails : ∃ e', s.value = .error e')
  | runs {env' : Env} {ran done : List String} {v : Value}
    (run : Binding.runAll order hosts env bs = .ok (env', ran))
    (le : env.Le env') (fresh : FreshFrom env' lets guards)
    (test_eq : ∀ env'', env'.Le env'' → eval order hosts env'' test = .ok v)
    (value : s = .done v done) (ran_eq : bindingsOf ran = done ++ extra)

section

variable {order : FloatOrder} {hosts : Hosts} {env : Env} {bs cs : List Binding} {s : Traced α}
  {result : Env → Except EvalError α} {lets lets' guards guards' : Nat}

namespace Realizes

/-- A part without bindings. -/
theorem of_nil (hfresh : FreshFrom env lets guards)
    (hagrees : ∀ env', env.Le env' → (result env').Agrees s.value)
    (hdone : ∀ a done, s = .done a done → done = []) :
    Realizes order hosts env [] result s lets guards :=
  .runs rfl (.refl env) hfresh hagrees fun a done hs => (hdone a done hs).symm

/-- What follows a part and has no bindings of its own. -/
theorem andThen {k : Env → α → Except EvalError β} {t : α → Traced β}
    (h : Realizes order hosts env bs result s lets guards) (hl : lets ≤ lets') (hg : guards ≤ guards')
    (hagrees : ∀ env' a, env.Le env' → s.value = .ok a → (k env' a).Agrees (t a).value)
    (hdone : ∀ a b done, t a = .done b done → done = []) :
    Realizes order hosts env bs (fun env' => result env' >>= k env') (s >>= t) lets' guards' := by
  cases h with
  | stops run arithmetic fails => exact .stops run arithmetic (Traced.fails_bind fails)
  | runs run le fresh agrees ran_eq =>
    refine .runs run le (fresh.mono hl hg) (fun env'' hle => ?_) fun b done hdone' => ?_
    · rw [Traced.value_bind]
      exact (agrees env'' hle).bind fun a ha => hagrees env'' a (le.trans hle) ha
    · obtain ⟨a, before, behind, ha, hb, rfl⟩ := Traced.bind_eq_done_iff.1 hdone'
      rw [ran_eq a before ha, hdone a b behind hb, List.append_nil]

/-- Two parts after each other. The second one runs whatever comes of the first. -/
theorem append {γ : Type} {result' : Env → Except EvalError β} {s' : Traced β}
    {k : α → β → Except EvalError γ}
    (h : Realizes order hosts env bs result s lets guards)
    (h' : ∀ env', env.Le env' → FreshFrom env' lets guards →
      Realizes order hosts env' cs result' s' lets' guards')
    (hk : ∀ a b, s.value = .ok a → s'.value = .ok b → (k a b).Satisfies fun _ => True) :
    Realizes order hosts env (bs ++ cs)
      (fun env' => result env' >>= fun a => result' env' >>= fun b => k a b)
      (s >>= fun a => s' >>= fun b => Traced.lift (k a b)) lets' guards' := by
  have hrun : Binding.runAll order hosts env (bs ++ cs) = _ := Binding.runAll_append bs cs
  cases h with
  | stops run arithmetic fails =>
    rw [run] at hrun
    exact .stops hrun arithmetic (Traced.fails_bind fails)
  | @runs env₁ ran run le fresh agrees ran_eq =>
    rw [run, Except.ok_bind] at hrun
    cases h' env₁ le fresh with
    | stops run' arithmetic fails =>
      rw [run'] at hrun
      refine .stops hrun arithmetic ?_
      rw [Traced.value_bind]
      cases s.value with
      | error e => exact ⟨e, rfl⟩
      | ok a => exact Traced.fails_bind fails
    | @runs env₂ more run' le' fresh' agrees' ran_eq' =>
      rw [run', Except.ok_bind] at hrun
      refine .runs hrun (le.trans le') fresh' (fun env'' hle => ?_) fun c done hdone => ?_
      · rw [Traced.value_bind]
        refine (agrees env'' (le'.trans hle)).bind fun a ha => ?_
        rw [Traced.value_bind]
        refine (agrees' env'' hle).bind fun b hb => ?_
        rw [Traced.value_lift]
        exact (hk a b ha hb).agrees
      · obtain ⟨a, before, behind, ha, hb, rfl⟩ := Traced.bind_eq_done_iff.1 hdone
        obtain ⟨b, before', behind', hb', hc, rfl⟩ := Traced.bind_eq_done_iff.1 hb
        rw [bindingsOf_append, ran_eq a before ha, ran_eq' b before' hb',
          Traced.eq_nil_of_lift_eq_done hc, List.append_nil]

/-- Bindings behind a part that are all left out change nothing. -/
theorem append_skip (h : Realizes order hosts env bs result s lets guards)
    (hskip : ∀ env', env.Le env' → FreshFrom env' lets guards →
      Binding.runAll order hosts env' cs = .ok (env', []))
    (hl : lets ≤ lets') (hg : guards ≤ guards') :
    Realizes order hosts env (bs ++ cs) result s lets' guards' := by
  have hrun : Binding.runAll order hosts env (bs ++ cs) = _ := Binding.runAll_append bs cs
  cases h with
  | stops run arithmetic fails =>
    rw [run] at hrun
    exact .stops hrun arithmetic fails
  | @runs env₁ ran run le fresh agrees ran_eq =>
    rw [run, Except.ok_bind, hskip env₁ le fresh, Except.ok_bind, List.append_nil] at hrun
    exact .runs hrun le (fresh.mono hl hg) agrees ran_eq

/-- Bindings before a part that are all left out change nothing. -/
theorem skip_append (hskip : Binding.runAll order hosts env bs = .ok (env, []))
    (h : Realizes order hosts env cs result s lets guards) :
    Realizes order hosts env (bs ++ cs) result s lets guards := by
  have hrun : Binding.runAll order hosts env (bs ++ cs) = _ := Binding.runAll_append bs cs
  rw [hskip, Except.ok_bind] at hrun
  cases h with
  | stops run arithmetic fails =>
    rw [run] at hrun
    exact .stops hrun arithmetic fails
  | runs run le fresh agrees ran_eq =>
    rw [run, Except.ok_bind, List.nil_append] at hrun
    exact .runs hrun le fresh agrees ran_eq

theorem congr_result {result' : Env → Except EvalError α}
    (h : Realizes order hosts env bs result s lets guards)
    (hresult : ∀ env', env.Le env' → result' env' = result env') :
    Realizes order hosts env bs result' s lets guards := by
  cases h with
  | stops run arithmetic fails => exact .stops run arithmetic fails
  | runs run le fresh agrees ran_eq =>
    refine .runs run le fresh (fun env'' hle => ?_) ran_eq
    rw [hresult env'' (le.trans hle)]
    exact agrees env'' hle

/-- The value of a part under a name. `extra` lists that name if it is the name of a binding. -/
theorem pin {guard : List Expr} {value : Expr} {s : Traced Value} (name : String) (extra : List String)
    (h : Realizes order hosts env bs (fun env' => eval order hosts env' value) s lets guards)
    (hguard : evalDeciding order hosts env false guard = .ok true)
    (hname : ∀ {env' : Env}, FreshFrom env' lets guards → env'.lookup name = none)
    (hfresh : ∀ {env' : Env} {v : Value}, FreshFrom env' lets guards →
      FreshFrom ((name, v) :: env') lets' guards')
    (hextra : bindingsOf [name] = extra) :
    Pins order hosts env (bs ++ [guarded guard name value]) (var name) s extra lets' guards' := by
  have hrun : Binding.runAll order hosts env (bs ++ [guarded guard name value]) = _ :=
    Binding.runAll_append bs _
  cases h with
  | stops run arithmetic fails =>
    rw [run] at hrun
    exact .stops hrun arithmetic fails
  | @runs env₁ ran run le fresh agrees ran_eq =>
    have hholds : evalDeciding order hosts env₁ false guard = .ok true := by
      rw [evalDeciding_mono le (P := fun _ => True) (by rw [hguard]; trivial), hguard]
    rw [run, Except.ok_bind, Binding.runAll, Binding.run_guarded_of_holds hholds] at hrun
    have hagrees := agrees env₁ (.refl env₁)
    cases hvalue : eval order hosts env₁ value with
    | error e =>
      rw [hvalue] at hrun hagrees
      obtain ⟨harith, hfails⟩ := hagrees.eq_error rfl
      exact .stops hrun harith hfails
    | ok v =>
      rw [hvalue] at hrun hagrees
      obtain ⟨done, hs⟩ := Traced.value_eq_ok_iff.1 (hagrees.eq_ok rfl)
      have hle : env₁.Le ((name, v) :: env₁) := .cons_of_lookup_eq_none (hname fresh) v
      refine .runs hrun (le.trans hle) (hfresh fresh) (fun env'' hle' => ?_) hs ?_
      · have hlookup : env''.lookup name = some v := hle' name v List.lookup_cons_self
        rw [eval, hlookup]
      · rw [bindingsOf_append, ran_eq v done hs]
        exact congrArg _ hextra

end Realizes

namespace Pins

variable {s : Traced Value} {test : Expr} {extra : List String}

/-- What follows a part may rely on the value that is held. -/
theorem andThen {result : Env → Except EvalError β} {t : Value → Traced β}
    (h : Pins order hosts env bs test s extra lets guards)
    (h' : ∀ env' v, env.Le env' → FreshFrom env' lets guards → s.value = .ok v →
      (∀ env'', env'.Le env'' → eval order hosts env'' test = .ok v) →
        Realizes order hosts env' cs result (t v) lets' guards') :
    Realizes order hosts env (bs ++ cs) result (s >>= fun v => (t v).after extra) lets' guards' := by
  have hrun : Binding.runAll order hosts env (bs ++ cs) = _ := Binding.runAll_append bs cs
  cases h with
  | stops run arithmetic fails =>
    rw [run] at hrun
    exact .stops hrun arithmetic (Traced.fails_bind fails)
  | @runs env₁ ran done v run le fresh test_eq value ran_eq =>
    rw [run, Except.ok_bind] at hrun
    have hvalue : s.value = .ok v := Traced.value_eq_ok_iff.2 ⟨done, value⟩
    cases h' env₁ v le fresh hvalue test_eq with
    | stops run' arithmetic fails =>
      rw [run'] at hrun
      refine .stops hrun arithmetic ?_
      rw [Traced.value_bind, hvalue, Except.ok_bind, Traced.value_after]
      exact fails
    | runs run' le' fresh' agrees' ran_eq' =>
      rw [run', Except.ok_bind] at hrun
      refine .runs hrun (le.trans le') fresh' (fun env'' hle => ?_) fun b done' hdone => ?_
      · rw [Traced.value_bind, hvalue, Except.ok_bind, Traced.value_after]
        exact agrees' env'' hle
      · subst value
        obtain ⟨v', before, behind, hv, hb, rfl⟩ := Traced.bind_eq_done_iff.1 hdone
        obtain ⟨rfl, rfl⟩ : v = v' ∧ done = before := by
          injection hv with h₁ h₂
          exact ⟨h₁, h₂⟩
        obtain ⟨behind', hb', rfl⟩ := Traced.after_eq_done_iff.1 hb
        rw [bindingsOf_append, ran_eq, ran_eq' b behind' hb', List.append_assoc]

/-- The same for a value that is held by a condition. -/
theorem andThen_nil {result : Env → Except EvalError β} {t : Value → Traced β}
    (h : Pins order hosts env bs test s [] lets guards)
    (h' : ∀ env' v, env.Le env' → FreshFrom env' lets guards → s.value = .ok v →
      (∀ env'', env'.Le env'' → eval order hosts env'' test = .ok v) →
        Realizes order hosts env' cs result (t v) lets' guards') :
    Realizes order hosts env (bs ++ cs) result (s >>= t) lets' guards' := by
  have := h.andThen h'
  simpa only [Traced.after_nil] using this

end Pins

end

end Barrage.Expr
