import Barrage.Proofs.Expr.Renaming

/-!
# Running a linear form

A linear form is run from front to back. A binding without a condition is evaluated, and so is one whose
condition holds; a binding whose condition does not hold is left out, and then its name stands for
nothing: to read it is a fault, and no fault of arithmetic. The run lists the bindings it evaluated.

More bindings do no harm. As long as a tree meets no fault other than one of arithmetic, it has the same
value in every environment that holds all that its own one holds, and a run goes the same way.

## Main definitions

* `Binding.run`, `Linear.run` — running one binding, and a whole linear form
* `Expr.Names.Le`, `Expr.Env.Le` — names and environments that hold what others hold

## Main results

* `Expr.eval_mono`, `Linear.run_mono` — larger environments do no harm
* `Binding.run_guarded` — the condition of a binding is the conjunction of the conditions that lead to it
* `Binding.runAll_skip` — bindings behind a condition that does not hold are all left out
-/

namespace Barrage

open Barrage.Expr

/-- An environment in which a name stands for nothing. -/
def Expr.Env.without (env : Env) (name : String) : Env := env.filter fun x => x.1 != name

namespace Binding

/-- Whether a binding is to be evaluated. -/
def holds (order : FloatOrder) (hosts : Hosts) (env : Env) (b : Binding) : Except EvalError Bool :=
  match b.guard with
  | none => .ok true
  | some cond => do
    let value ← eval order hosts env cond
    value.toBool

/-- Runs one binding: the environment after it, and its name if it was evaluated. -/
def run (order : FloatOrder) (hosts : Hosts) (env : Env) (b : Binding) :
    Except EvalError (Env × List String) := do
  if ← b.holds order hosts env then
    let value ← eval order hosts env b.value
    .ok ((b.name, value) :: env, [b.name])
  else .ok (env.without b.name, [])

/-- Runs bindings from front to back: the environment after them, and the names of those evaluated. -/
def runAll (order : FloatOrder) (hosts : Hosts) (env : Env) :
    List Binding → Except EvalError (Env × List String)
  | [] => .ok (env, [])
  | b :: bs => do
    let (env, ran) ← b.run order hosts env
    let (env, more) ← runAll order hosts env bs
    .ok (env, ran ++ more)

end Binding

/-- Runs the bindings of a linear form and evaluates its result. -/
def Linear.run (order : FloatOrder) (hosts : Hosts) (env : Env) (l : Linear) :
    Except EvalError (Value × List String) := do
  let (env, ran) ← Binding.runAll order hosts env l.bindings
  let value ← eval order hosts env l.result
  .ok (value, ran)

/-! ### Larger environments -/

namespace Expr

theorem lookup_cons_ite {α : Type} (name : String) (a : α) (names : List (String × α)) (x : String) :
    ((name, a) :: names).lookup x = if x = name then some a else names.lookup x := by
  rw [List.lookup_cons]
  by_cases hx : x = name
  · simp [hx]
  · rw [beq_false_of_ne hx, if_neg hx]

/-- Every name that stands for something in the first list stands for it in the second one. -/
def Names.Le {α : Type} (names names' : List (String × α)) : Prop :=
  ∀ name a, names.lookup name = some a → names'.lookup name = some a

namespace Names.Le

variable {α : Type} {names names' names'' : List (String × α)}

theorem refl (names : List (String × α)) : Le names names := fun _ _ h => h

theorem trans (h : Le names names') (h' : Le names' names'') : Le names names'' :=
  fun name a hname => h' name a (h name a hname)

theorem cons (h : Le names names') (name : String) (a : α) :
    Le ((name, a) :: names) ((name, a) :: names') := by
  intro x b hx
  rw [lookup_cons_ite] at hx ⊢
  split at hx
  · rw [if_pos ‹_›]
    exact hx
  · rw [if_neg ‹_›]
    exact h x b hx

/-- A name that stood for nothing may stand for something. -/
theorem cons_of_lookup_eq_none {name : String} (h : names.lookup name = none) (a : α) :
    Le names ((name, a) :: names) := by
  intro x b hx
  have hne : x ≠ name := by
    rintro rfl
    rw [h] at hx
    cases hx
  rw [lookup_cons_ite, if_neg hne]
  exact hx

end Names.Le

/-- Every name that stands for a value in the first environment does so in the second one. -/
abbrev Env.Le (env env' : Env) : Prop := Names.Le env env'

theorem lookup_without (env : Env) (name x : String) :
    (env.without name).lookup x = if x = name then none else env.lookup x := by
  induction env with
  | nil => simp [Env.without]
  | cons b env ih =>
    obtain ⟨y, v⟩ := b
    unfold Env.without at ih ⊢
    by_cases hy : y = name
    · rw [List.filter_cons_of_neg (by simp [hy]), ih, lookup_cons_ite, hy]
      by_cases hx : x = name
      · simp [hx]
      · simp [hx]
    · rw [List.filter_cons_of_pos (by simpa using hy), lookup_cons_ite, lookup_cons_ite, ih]
      by_cases hx : x = y
      · simp [hx, hy]
      · simp [hx]

theorem Env.Le.without {env env' : Env} (h : Env.Le env env') (name : String) :
    Env.Le (env.without name) (env'.without name) := by
  intro x v hx
  rw [lookup_without] at hx ⊢
  split at hx
  · cases hx
  · rw [if_neg ‹_›]
    exact h x v hx

theorem without_eq_self {env : Env} {name : String} (h : env.lookup name = none) :
    env.without name = env := by
  refine List.filter_eq_self.2 fun b hb => ?_
  rw [List.lookup_eq_none_iff] at h
  rw [bne_iff_ne]
  rintro rfl
  simpa using h b hb

end Expr

namespace Expr

variable {order order' : FloatOrder} {hosts : Hosts} {env env' : Env} {args args' : List Expr}

/-- Trees that evaluate alike one by one do so as arguments. -/
theorem evalList_congr {P : List Value → Prop}
    (hargs : List.Forall₂ (fun e e' => (eval order hosts env e).Satisfies (fun _ => True) →
      eval order' hosts env' e' = eval order hosts env e) args args')
    (h : (evalList order hosts env args).Satisfies P) :
    evalList order' hosts env' args' = evalList order hosts env args := by
  induction hargs generalizing P with
  | nil => rfl
  | cons he _ ih =>
    refine Except.bind_congr h he fun value _ h => ?_
    exact Except.bind_congr h ih fun _ _ _ => rfl

/-- Trees that evaluate alike one by one do so as operands of which the first may decide. -/
theorem evalDeciding_congr {P : Bool → Prop} {short : Bool}
    (hargs : List.Forall₂ (fun e e' => (eval order hosts env e).Satisfies (fun _ => True) →
      eval order' hosts env' e' = eval order hosts env e) args args')
    (h : (evalDeciding order hosts env short args).Satisfies P) :
    evalDeciding order' hosts env' short args' = evalDeciding order hosts env short args := by
  induction hargs generalizing P with
  | nil => rfl
  | cons he _ ih =>
    refine Except.bind_congr h he fun value _ h => ?_
    refine Except.bind_congr h (fun _ => rfl) fun b _ h => ?_
    split
    · rfl
    · rename_i hb
      rw [if_neg hb] at h
      exact ih h

/-- Calls with arguments that evaluate alike do so. -/
theorem eval_call_congr {P : Value → Prop} (func : Func)
    (hargs : List.Forall₂ (fun e e' => (eval order hosts env e).Satisfies (fun _ => True) →
      eval order' hosts env' e' = eval order hosts env e) args args')
    (h : (eval order hosts env (call func args)).Satisfies P) :
    eval order' hosts env' (call func args') = eval order hosts env (call func args) := by
  by_cases hshort : func = .and ∨ func = .or
  · rcases hshort with rfl | rfl
    · exact Except.bind_congr h (evalDeciding_congr hargs) fun _ _ _ => rfl
    · exact Except.bind_congr h (evalDeciding_congr hargs) fun _ _ _ => rfl
  · rw [not_or] at hshort
    rw [eval_call hshort.1 hshort.2] at h ⊢
    rw [eval_call hshort.1 hshort.2]
    exact Except.bind_congr h (evalList_congr hargs) fun _ _ _ => rfl

/-- In a larger environment a tree evaluates to the same, unless a name stood for nothing. -/
theorem eval_mono {e : Expr} {P : Value → Prop} (hle : env.Le env')
    (h : (eval order hosts env e).Satisfies P) :
    eval order hosts env' e = eval order hosts env e := by
  induction e using treeInduction generalizing env env' P with
  | const value => rfl
  | var name =>
    rw [eval, eval]
    rw [eval] at h
    cases hlookup : env.lookup name with
    | some value => rw [hle name value hlookup]
    | none =>
      rw [hlookup] at h
      cases h
  | member inner field ih => exact Except.bind_congr h (ih hle) fun _ _ _ => rfl
  | unary op inner ih => exact Except.bind_congr h (ih hle) fun _ _ _ => rfl
  | binary op left right ihl ihr =>
    refine Except.bind_congr h (ihl hle) fun l _ h => ?_
    exact Except.bind_congr h (ihr hle) fun _ _ _ => rfl
  | branch cond yes no ihc ihy ihn =>
    refine Except.bind_congr h (ihc hle) fun value _ h => ?_
    refine Except.bind_congr h (fun _ => rfl) fun b _ h => ?_
    cases b with
    | true => exact ihy hle h
    | false => exact ihn hle h
  | bind name value body ihv ihb =>
    exact Except.bind_congr h (ihv hle) fun x _ h => ihb (hle.cons name x) h
  | call func args ih =>
    exact eval_call_congr func (List.forall₂_same.2 fun e he h => ih e he hle h) h

theorem evalDeciding_mono {short : Bool} {P : Bool → Prop} (hle : env.Le env')
    (h : (evalDeciding order hosts env short args).Satisfies P) :
    evalDeciding order hosts env' short args = evalDeciding order hosts env short args :=
  evalDeciding_congr (List.forall₂_same.2 fun _ _ => eval_mono hle) h

/-- Operands behind others count only if those do not decide. -/
theorem evalDeciding_append {short : Bool} {more : List Expr} :
    evalDeciding order hosts env short (args ++ more) =
      evalDeciding order hosts env short args >>= fun b =>
        if b = short then .ok short else evalDeciding order hosts env short more := by
  induction args with
  | nil => cases short <;> rfl
  | cons e es ih =>
    rw [List.cons_append, evalDeciding, evalDeciding]
    cases eval order hosts env e with
    | error e => rfl
    | ok value =>
      simp only [Except.ok_bind]
      cases value.toBool with
      | error e => rfl
      | ok b =>
        simp only [Except.ok_bind]
        by_cases hb : b = short
        · simp [hb]
        · rw [if_neg hb, if_neg hb, ih]

end Expr

namespace Binding

variable {order : FloatOrder} {hosts : Hosts} {env env' : Env}

/-- The condition of a binding holds if the conditions that lead to it all do. -/
theorem run_guarded (guard : List Expr) (name : String) (value : Expr) :
    (guarded guard name value).run order hosts env =
      evalDeciding order hosts env false guard >>= fun holds =>
        if holds then eval order hosts env value >>= fun x => .ok ((name, x) :: env, [name])
        else .ok (env.without name, []) := by
  unfold guarded run holds
  match guard with
  | [] => rfl
  | [single] =>
    simp only [conjunction, evalDeciding]
    cases eval order hosts env single with
    | error e => rfl
    | ok v =>
      simp only [Except.ok_bind]
      cases v.toBool with
      | error e => rfl
      | ok b => cases b <;> rfl
  | first :: second :: more =>
    simp only [conjunction, eval]
    cases evalDeciding order hosts env false (first :: second :: more) <;> rfl

/-- A binding whose conditions hold is evaluated. -/
theorem run_guarded_of_holds {guard : List Expr} {name : String} {value : Expr}
    (h : evalDeciding order hosts env false guard = .ok true) :
    (guarded guard name value).run order hosts env =
      eval order hosts env value >>= fun x => .ok ((name, x) :: env, [name]) := by
  rw [run_guarded, h]
  rfl

theorem runAll_append (bs cs : List Binding) :
    runAll order hosts env (bs ++ cs) =
      runAll order hosts env bs >>= fun r =>
        runAll order hosts r.1 cs >>= fun r' => .ok (r'.1, r.2 ++ r'.2) := by
  induction bs generalizing env with
  | nil =>
    simp only [List.nil_append, runAll, Except.ok_bind]
    cases runAll order hosts env cs <;> rfl
  | cons b bs ih =>
    simp only [List.cons_append, runAll]
    cases b.run order hosts env with
    | error e => rfl
    | ok r =>
      simp only [Except.ok_bind, ih]
      cases runAll order hosts r.1 bs with
      | error e => rfl
      | ok r' =>
        simp only [Except.ok_bind]
        cases runAll order hosts r'.1 cs with
        | error e => rfl
        | ok r'' => simp

/-- Bindings behind a condition that does not hold are all left out. -/
theorem runAll_skip {guard : List Expr} {bs : List Binding}
    (hguard : evalDeciding order hosts env false guard = .ok false)
    (h : ∀ b ∈ bs, ∃ more name value, b = guarded (guard ++ more) name value ∧
      env.lookup name = none) :
    runAll order hosts env bs = .ok (env, []) := by
  induction bs with
  | nil => rfl
  | cons b bs ih =>
    rw [List.forall_mem_cons] at h
    obtain ⟨⟨more, name, value, rfl, hname⟩, hbs⟩ := h
    have hskip : (guarded (guard ++ more) name value).run order hosts env = .ok (env, []) := by
      rw [run_guarded, evalDeciding_append, hguard]
      simp [without_eq_self hname]
    rw [runAll, hskip]
    simp [ih hbs]

/-- Two runs that go the same way, the second one in an environment that holds what that of the first
one holds. -/
def SameRun : Except EvalError (Env × List String) → Except EvalError (Env × List String) → Prop
  | .ok (env, ran), .ok (env', ran') => env.Le env' ∧ ran = ran'
  | .error e, .error e' => e = e'
  | _, _ => False

theorem SameRun.bind {r r' : Except EvalError (Env × List String)}
    {f f' : Env × List String → Except EvalError (Env × List String)}
    {P : Env × List String → Prop} (h : (r >>= f).Satisfies P)
    (hr : r.Satisfies (fun _ => True) → SameRun r r')
    (hf : ∀ x x' : Env × List String, x.1.Le x'.1 → x.2 = x'.2 → (f x).Satisfies P →
      SameRun (f x) (f' x')) : SameRun (r >>= f) (r' >>= f') := by
  cases r with
  | error e =>
    have hsame := hr h
    cases r' with
    | error e' => exact hsame
    | ok x' => exact hsame.elim
  | ok x =>
    have hsame := hr trivial
    cases r' with
    | error e' => exact hsame.elim
    | ok x' => exact hf x x' hsame.1 hsame.2 h

/-- In a larger environment a condition comes out the same. -/
theorem holds_mono {b : Binding} {P : Bool → Prop} (hle : env.Le env')
    (h : (b.holds order hosts env).Satisfies P) :
    b.holds order hosts env' = b.holds order hosts env := by
  obtain ⟨name, guard, value⟩ := b
  cases guard with
  | none => rfl
  | some cond => exact Except.bind_congr h (eval_mono hle) fun _ _ _ => rfl

/-- In a larger environment a binding runs the same way. -/
theorem run_mono {b : Binding} {P : Env × List String → Prop} (hle : env.Le env')
    (h : (b.run order hosts env).Satisfies P) :
    SameRun (b.run order hosts env) (b.run order hosts env') := by
  unfold run at h ⊢
  rw [holds_mono hle h.of_bind]
  revert h
  cases b.holds order hosts env with
  | error e => exact fun _ => rfl
  | ok holds =>
    cases holds with
    | false => exact fun _ => ⟨hle.without b.name, rfl⟩
    | true =>
      intro h
      change (eval order hosts env b.value >>= _).Satisfies P at h
      change SameRun (eval order hosts env b.value >>= _) (eval order hosts env' b.value >>= _)
      rw [eval_mono hle h.of_bind]
      cases eval order hosts env b.value with
      | error e => rfl
      | ok x => exact ⟨hle.cons b.name x, rfl⟩

theorem runAll_mono {bs : List Binding} {P : Env × List String → Prop} (hle : env.Le env')
    (h : (runAll order hosts env bs).Satisfies P) :
    SameRun (runAll order hosts env bs) (runAll order hosts env' bs) := by
  induction bs generalizing env env' P with
  | nil => exact ⟨hle, rfl⟩
  | cons b bs ih =>
    refine SameRun.bind h (run_mono hle) fun x x' hle hran h => ?_
    refine SameRun.bind h (ih hle) fun y y' hle hran' _ => ?_
    exact ⟨hle, by rw [hran, hran']⟩

end Binding

/-- In a larger environment a linear form runs to the same result, and evaluates the same bindings. -/
theorem Linear.run_mono {order : FloatOrder} {hosts : Hosts} {env env' : Env} {l : Linear}
    {P : Value × List String → Prop} (hle : env.Le env')
    (h : (l.run order hosts env).Satisfies P) :
    l.run order hosts env' = l.run order hosts env := by
  unfold run at h ⊢
  have hsame := Binding.runAll_mono hle h.of_bind
  revert hsame h
  cases Binding.runAll order hosts env l.bindings with
  | error e =>
    cases Binding.runAll order hosts env' l.bindings with
    | error e' =>
      rintro _ ⟨⟩
      rfl
    | ok x' => exact fun _ hsame => hsame.elim
  | ok x =>
    cases Binding.runAll order hosts env' l.bindings with
    | error e' => exact fun _ hsame => hsame.elim
    | ok x' =>
      obtain ⟨env₁, ran⟩ := x
      obtain ⟨env₁', ran'⟩ := x'
      rintro h ⟨hle, rfl⟩
      simp only [Except.ok_bind] at h ⊢
      exact Except.bind_congr h (eval_mono hle) fun _ _ _ => rfl

end Barrage
