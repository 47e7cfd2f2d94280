import Barrage.Proofs.Expr.Names
import Barrage.Proofs.Expr.WellTyped

/-!
# Bindings with names of their own

Renaming numbers the bindings of a tree from left to right, the ones in a value before the binding of
the value. To say what becomes of each binding in an evaluation, `evalTraced` evaluates a tree and lists
the bindings whose values were computed, in the order in which that happened. It labels a binding by
its name and number; a tree whose bindings have names of their own needs no other labels.

A renamed tree reads its variables under other names. Environments are related by what they hold for a
name and for the new name of it, so the same relation serves values and types.

## Main definitions

* `Traced` — computations that list bindings
* `Expr.lets`, `Expr.vars` — the number of bindings of a tree, and its variables
* `Expr.evalTraced` — evaluation that lists the bindings it computes
* `Expr.Numbered` — trees whose bindings carry their numbers
* `Expr.Renames` — names before and after renaming

## Main results

* `Expr.value_evalTraced` — listing bindings does not change what a tree evaluates to
* `Expr.numbered_rename`, `Expr.inferIn_rename`, `Expr.evalTraced_rename` — a renamed tree is numbered,
  has the same type, and computes the same bindings to the same value
-/

namespace Barrage

/-! ### Computations that list bindings -/

/-- A computation that lists the bindings whose values it computed. -/
inductive Traced (α : Type) where
  | done (result : α) (ran : List String)
  | failed (fault : EvalError)

namespace Traced

variable {α β : Type}

/-- A computation with a list of bindings before it. -/
def after (before : List String) : Traced α → Traced α
  | done a ran => done a (before ++ ran)
  | failed e => failed e

instance : Monad Traced where
  pure a := done a []
  bind r f :=
    match r with
    | done a ran => (f a).after ran
    | failed e => failed e

/-- A computation that computes no binding. -/
def lift : Except EvalError α → Traced α
  | .ok a => done a []
  | .error e => failed e

/-- Lists one binding. -/
def note (name : String) : Traced Unit := done () [name]

/-- The result alone. -/
def value : Traced α → Except EvalError α
  | done a _ => .ok a
  | failed e => .error e

@[simp] theorem value_lift {r : Except EvalError α} : (lift r).value = r := by
  cases r <;> rfl

@[simp] theorem value_note {name : String} : (note name).value = .ok () := rfl

@[simp] theorem value_after {before : List String} {r : Traced α} :
    (r.after before).value = r.value := by
  cases r <;> rfl

@[simp] theorem value_bind {r : Traced α} {f : α → Traced β} :
    (r >>= f).value = r.value >>= fun a => (f a).value := by
  cases r with
  | failed e => rfl
  | done a ran => exact value_after

theorem value_eq_ok_iff {r : Traced α} {a : α} : r.value = .ok a ↔ ∃ ran, r = done a ran := by
  cases r <;> simp [value]

theorem after_eq_done_iff {before ran : List String} {r : Traced α} {a : α} :
    r.after before = done a ran ↔ ∃ behind, r = done a behind ∧ before ++ behind = ran := by
  cases r with
  | failed e => simp [after]
  | done b behind =>
    simp only [after, done.injEq]
    constructor
    · rintro ⟨rfl, rfl⟩
      exact ⟨behind, ⟨rfl, rfl⟩, rfl⟩
    · rintro ⟨_, ⟨rfl, rfl⟩, rfl⟩
      exact ⟨rfl, rfl⟩

theorem bind_eq_done_iff {r : Traced α} {f : α → Traced β} {b : β} {ran : List String} :
    r >>= f = done b ran ↔
      ∃ a before behind, r = done a before ∧ f a = done b behind ∧ before ++ behind = ran := by
  cases r with
  | failed e =>
    constructor
    · intro h
      cases h
    · rintro ⟨_, _, _, h, _⟩
      cases h
  | done a before =>
    refine after_eq_done_iff.trans ?_
    constructor
    · rintro ⟨behind, hf, hran⟩
      exact ⟨a, before, behind, rfl, hf, hran⟩
    · rintro ⟨_, _, behind, heq, hf, hran⟩
      cases heq
      exact ⟨behind, hf, hran⟩

theorem fails_bind {r : Traced α} {f : α → Traced β} (h : ∃ e, r.value = .error e) :
    ∃ e, (r >>= f).value = .error e := by
  obtain ⟨e, he⟩ := h
  exact ⟨e, by rw [value_bind, he]; rfl⟩

theorem eq_nil_of_lift_eq_done {r : Except EvalError α} {a : α} {ran : List String}
    (h : lift r = done a ran) : ran = [] := by
  cases r with
  | error e => cases h
  | ok b =>
    cases h
    rfl

@[simp] theorem after_nil {r : Traced α} : r.after [] = r := by
  cases r <;> rfl

theorem lift_ok_bind {a : α} {f : α → Traced β} : lift (.ok a) >>= f = f a := after_nil

/-- Sequences are equal if the parts are that are reached without a fault of another kind. -/
theorem bind_congr {P : β → Prop} {r r' : Traced α} {f f' : α → Traced β}
    (h : (r >>= f).value.Satisfies P) (hr : r.value.Satisfies (fun _ => True) → r' = r)
    (hf : ∀ a, (f a).value.Satisfies P → f' a = f a) : r' >>= f' = r >>= f := by
  cases r with
  | failed e =>
    rw [hr h]
    rfl
  | done a ran =>
    rw [hr trivial]
    rw [value_bind] at h
    exact congrArg (Traced.after ran) (hf a h)

end Traced

namespace Expr

mutual

/-- The number of bindings of a tree. -/
def lets : Expr → Nat
  | const _ | var _ => 0
  | member inner _ | unary _ inner => inner.lets
  | binary _ left right => left.lets + right.lets
  | call _ args => letsList args
  | branch cond yes no => cond.lets + yes.lets + no.lets
  | bind _ value body => value.lets + 1 + body.lets

/-- The number of bindings in a list of trees. -/
def letsList : List Expr → Nat
  | [] => 0
  | e :: es => e.lets + letsList es

end

mutual

/-- The variables of a tree, bound ones included. -/
def vars : Expr → List String
  | const _ => []
  | var name => [name]
  | member inner _ | unary _ inner => inner.vars
  | binary _ left right => left.vars ++ right.vars
  | call _ args => varsList args
  | branch cond yes no => cond.vars ++ yes.vars ++ no.vars
  | bind _ value body => value.vars ++ body.vars

/-- The variables in a list of trees. -/
def varsList : List Expr → List String
  | [] => []
  | e :: es => e.vars ++ varsList es

end

/-! ### Evaluation that lists bindings -/

mutual

/-- Value of an expression, and the bindings whose values were computed on the way, each by its label.
Bindings are numbered from `count` on, those in a value before the one of the value. -/
def evalTraced (label : String → Nat → String) (order : FloatOrder) (hosts : Hosts) (env : Env) :
    Expr → (count : Nat) → Traced Value
  | const value, _ => Traced.lift (.ok value)
  | var name, _ => Traced.lift (eval order hosts env (var name))
  | member inner field, count => do
    let value ← evalTraced label order hosts env inner count
    Traced.lift (value.member hosts field)
  | unary op inner, count => do
    let value ← evalTraced label order hosts env inner count
    Traced.lift (Value.unary op value)
  | binary op left right, count => do
    let l ← evalTraced label order hosts env left count
    let r ← evalTraced label order hosts env right (count + left.lets)
    Traced.lift (Value.binary order op l r)
  | call .and args, count => do
    let b ← decideTraced label order hosts env false args count
    Traced.lift (.ok (.bool b))
  | call .or args, count => do
    let b ← decideTraced label order hosts env true args count
    Traced.lift (.ok (.bool b))
  | call func args, count => do
    let values ← evalTracedList label order hosts env args count
    Traced.lift (func.apply values)
  | branch cond yes no, count => do
    let value ← evalTraced label order hosts env cond count
    let b ← Traced.lift value.toBool
    if b then evalTraced label order hosts env yes (count + cond.lets)
    else evalTraced label order hosts env no (count + cond.lets + yes.lets)
  | bind name value body, count => do
    let x ← evalTraced label order hosts env value count
    Traced.note (label name (count + value.lets))
    evalTraced label order hosts ((name, x) :: env) body (count + value.lets + 1)

/-- Values of a list of expressions, from left to right, with the bindings computed. -/
def evalTracedList (label : String → Nat → String) (order : FloatOrder) (hosts : Hosts) (env : Env) :
    List Expr → (count : Nat) → Traced (List Value)
  | [], _ => Traced.lift (.ok [])
  | e :: es, count => do
    let value ← evalTraced label order hosts env e count
    let values ← evalTracedList label order hosts env es (count + e.lets)
    Traced.lift (.ok (value :: values))

/-- The truth value of operands up to the one that decides, with the bindings computed. -/
def decideTraced (label : String → Nat → String) (order : FloatOrder) (hosts : Hosts) (env : Env)
    (short : Bool) : List Expr → (count : Nat) → Traced Bool
  | [], _ => Traced.lift (.ok !short)
  | e :: es, count => do
    let value ← evalTraced label order hosts env e count
    let b ← Traced.lift value.toBool
    if b = short then Traced.lift (.ok short)
    else decideTraced label order hosts env short es (count + e.lets)

end

section

variable {label : String → Nat → String} {order : FloatOrder} {hosts : Hosts}

/-- A call that does not decide early lists the bindings of its arguments. -/
theorem evalTraced_call {env : Env} {func : Func} {args : List Expr} {count : Nat}
    (hand : func ≠ .and) (hor : func ≠ .or) :
    evalTraced label order hosts env (call func args) count =
      evalTracedList label order hosts env args count >>= fun values =>
        Traced.lift (func.apply values) := by
  cases func <;> first | contradiction | rfl

theorem value_evalTracedList {env : Env} {args : List Expr} {count : Nat}
    (h : ∀ e ∈ args, ∀ count, (evalTraced label order hosts env e count).value = eval order hosts env e) :
    (evalTracedList label order hosts env args count).value = evalList order hosts env args := by
  induction args generalizing count with
  | nil => rfl
  | cons e es ih =>
    rw [List.forall_mem_cons] at h
    simp only [evalTracedList, evalList, Traced.value_bind, Traced.value_lift, h.1, ih h.2]

theorem value_decideTraced {env : Env} {short : Bool} {args : List Expr} {count : Nat}
    (h : ∀ e ∈ args, ∀ count, (evalTraced label order hosts env e count).value = eval order hosts env e) :
    (decideTraced label order hosts env short args count).value =
      evalDeciding order hosts env short args := by
  induction args generalizing count with
  | nil => rfl
  | cons e es ih =>
    rw [List.forall_mem_cons] at h
    simp only [decideTraced, evalDeciding, Traced.value_bind, Traced.value_lift, h.1]
    refine congrArg _ (funext fun value => congrArg _ (funext fun b => ?_))
    split
    · rfl
    · exact ih h.2

/-- Listing bindings does not change what a tree evaluates to. -/
theorem value_evalTraced (label : String → Nat → String) (env : Env) (e : Expr) (count : Nat) :
    (evalTraced label order hosts env e count).value = eval order hosts env e := by
  induction e using treeInduction generalizing env count with
  | const | var => exact Traced.value_lift
  | member inner field ih => simp only [evalTraced, eval, Traced.value_bind, Traced.value_lift, ih]
  | unary op inner ih => simp only [evalTraced, eval, Traced.value_bind, Traced.value_lift, ih]
  | binary op left right ihl ihr =>
    simp only [evalTraced, eval, Traced.value_bind, Traced.value_lift, ihl, ihr]
  | branch cond yes no ihc ihy ihn =>
    simp only [evalTraced, eval, Traced.value_bind, Traced.value_lift, ihc]
    refine congrArg _ (funext fun value => congrArg _ (funext fun b => ?_))
    split
    · exact ihy _ _
    · exact ihn _ _
  | bind name value body ihv ihb =>
    simp only [evalTraced, eval, Traced.value_bind, Traced.value_note, ihv, Except.ok_bind, ihb]
  | call func args ih =>
    have hargs : ∀ e ∈ args, ∀ count,
        (evalTraced label order hosts env e count).value = eval order hosts env e :=
      fun e he count => ih e he env count
    by_cases hshort : func = .and ∨ func = .or
    · rcases hshort with rfl | rfl
      · simp only [evalTraced, eval, Traced.value_bind, Traced.value_lift, value_decideTraced hargs]
        rfl
      · simp only [evalTraced, eval, Traced.value_bind, Traced.value_lift, value_decideTraced hargs]
        rfl
    · rw [not_or] at hshort
      rw [evalTraced_call hshort.1 hshort.2, eval_call hshort.1 hshort.2]
      simp only [Traced.value_bind, Traced.value_lift, value_evalTracedList hargs]

end

/-! ### Each binding at most once -/

mutual

/-- The labels of all bindings of a tree, in the order of their numbers. -/
def labels (label : String → Nat → String) : Expr → (count : Nat) → List String
  | const _, _ | var _, _ => []
  | member inner _, count | unary _ inner, count => labels label inner count
  | binary _ left right, count => labels label left count ++ labels label right (count + left.lets)
  | call _ args, count => labelsList label args count
  | branch cond yes no, count =>
    labels label cond count ++ labels label yes (count + cond.lets) ++
      labels label no (count + cond.lets + yes.lets)
  | bind name value body, count =>
    labels label value count ++
      label name (count + value.lets) :: labels label body (count + value.lets + 1)

/-- The labels of all bindings in a list of trees. -/
def labelsList (label : String → Nat → String) : List Expr → (count : Nat) → List String
  | [], _ => []
  | e :: es, count => labels label e count ++ labelsList label es (count + e.lets)

end

section Labels

variable {label : String → Nat → String} {order : FloatOrder} {hosts : Hosts} {env : Env}
  {args : List Expr} {count : Nat} {done : List String}

theorem length_labelsList (h : ∀ e ∈ args, ∀ count, (labels label e count).length = e.lets) :
    (labelsList label args count).length = letsList args := by
  induction args generalizing count with
  | nil => rfl
  | cons e es ih =>
    rw [List.forall_mem_cons] at h
    simp only [labelsList, letsList, List.length_append, h.1, ih h.2]

theorem length_labels (e : Expr) (count : Nat) : (labels label e count).length = e.lets := by
  induction e using treeInduction generalizing count with
  | const | var => rfl
  | member inner field ih => exact ih count
  | unary op inner ih => exact ih count
  | binary op left right ihl ihr => simp only [labels, lets, List.length_append, ihl, ihr]
  | branch cond yes no ihc ihy ihn => simp only [labels, lets, List.length_append, ihc, ihy, ihn]
  | bind name value body ihv ihb =>
    simp only [labels, lets, List.length_append, List.length_cons, ihv, ihb]
    omega
  | call func args ih => exact length_labelsList ih

theorem sublist_of_evalTracedList {vs : List Value}
    (h : ∀ e ∈ args, ∀ {count v done}, evalTraced label order hosts env e count = .done v done →
      done.Sublist (labels label e count))
    (hdone : evalTracedList label order hosts env args count = .done vs done) :
    done.Sublist (labelsList label args count) := by
  induction args generalizing count vs done with
  | nil => rw [Traced.eq_nil_of_lift_eq_done hdone]; exact List.nil_sublist _
  | cons e es ih =>
    rw [List.forall_mem_cons] at h
    obtain ⟨v, before, behind, hv, hrest, rfl⟩ := Traced.bind_eq_done_iff.1 hdone
    obtain ⟨vs', before', behind', hvs, hlift, rfl⟩ := Traced.bind_eq_done_iff.1 hrest
    rw [Traced.eq_nil_of_lift_eq_done hlift, List.append_nil]
    exact (h.1 hv).append (ih h.2 hvs)

theorem sublist_of_decideTraced {short b : Bool}
    (h : ∀ e ∈ args, ∀ {count v done}, evalTraced label order hosts env e count = .done v done →
      done.Sublist (labels label e count))
    (hdone : decideTraced label order hosts env short args count = .done b done) :
    done.Sublist (labelsList label args count) := by
  induction args generalizing count b done with
  | nil => rw [Traced.eq_nil_of_lift_eq_done hdone]; exact List.nil_sublist _
  | cons e es ih =>
    rw [List.forall_mem_cons] at h
    obtain ⟨v, before, behind, hv, hrest, rfl⟩ := Traced.bind_eq_done_iff.1 hdone
    obtain ⟨b', before', behind', hb, hgoesOn, rfl⟩ := Traced.bind_eq_done_iff.1 hrest
    rw [Traced.eq_nil_of_lift_eq_done hb, List.nil_append]
    refine (h.1 hv).append ?_
    split at hgoesOn
    · rw [Traced.eq_nil_of_lift_eq_done hgoesOn]
      exact List.nil_sublist _
    · exact ih h.2 hgoesOn

/-- The bindings computed are bindings of the tree, each of them at most once and in their order. -/
theorem sublist_of_evalTraced {e : Expr} {v : Value}
    (h : evalTraced label order hosts env e count = .done v done) :
    done.Sublist (labels label e count) := by
  induction e using treeInduction generalizing env count v done with
  | const | var => rw [Traced.eq_nil_of_lift_eq_done h]; exact List.nil_sublist _
  | member inner field ih =>
    obtain ⟨v, before, behind, hv, hlift, rfl⟩ := Traced.bind_eq_done_iff.1 h
    rw [Traced.eq_nil_of_lift_eq_done hlift, List.append_nil]
    exact ih hv
  | unary op inner ih =>
    obtain ⟨v, before, behind, hv, hlift, rfl⟩ := Traced.bind_eq_done_iff.1 h
    rw [Traced.eq_nil_of_lift_eq_done hlift, List.append_nil]
    exact ih hv
  | binary op left right ihl ihr =>
    obtain ⟨l, before, behind, hl, hrest, rfl⟩ := Traced.bind_eq_done_iff.1 h
    obtain ⟨r, before', behind', hr, hlift, rfl⟩ := Traced.bind_eq_done_iff.1 hrest
    rw [Traced.eq_nil_of_lift_eq_done hlift, List.append_nil]
    exact (ihl hl).append (ihr hr)
  | branch cond yes no ihc ihy ihn =>
    obtain ⟨c, before, behind, hc, hrest, rfl⟩ := Traced.bind_eq_done_iff.1 h
    obtain ⟨b, before', behind', hb, hrest, rfl⟩ := Traced.bind_eq_done_iff.1 hrest
    rw [Traced.eq_nil_of_lift_eq_done hb, List.nil_append, labels, List.append_assoc]
    refine (ihc hc).append ?_
    cases b with
    | true => exact (ihy hrest).trans (List.sublist_append_left _ _)
    | false => exact (ihn hrest).trans (List.sublist_append_right _ _)
  | bind name value body ihv ihb =>
    obtain ⟨x, before, behind, hx, hrest, rfl⟩ := Traced.bind_eq_done_iff.1 h
    obtain ⟨_, before', behind', hnote, hbody, rfl⟩ := Traced.bind_eq_done_iff.1 hrest
    cases hnote
    exact (ihv hx).append ((ihb hbody).cons_cons _)
  | call func args ih =>
    have hargs : ∀ e ∈ args, ∀ {count v done},
        evalTraced label order hosts env e count = .done v done →
          done.Sublist (labels label e count) := fun e he count v done h => ih e he h
    by_cases hshort : func = .and ∨ func = .or
    · rcases hshort with rfl | rfl
      all_goals
        obtain ⟨b, before, behind, hb, hlift, rfl⟩ := Traced.bind_eq_done_iff.1 h
        rw [Traced.eq_nil_of_lift_eq_done hlift, List.append_nil]
        exact sublist_of_decideTraced hargs hb
    · rw [not_or] at hshort
      rw [evalTraced_call hshort.1 hshort.2] at h
      obtain ⟨vs, before, behind, hvs, hlift, rfl⟩ := Traced.bind_eq_done_iff.1 h
      rw [Traced.eq_nil_of_lift_eq_done hlift, List.append_nil]
      exact sublist_of_evalTracedList hargs hvs

/-- A tree without bindings computes none. -/
theorem done_eq_nil_of_lets {e : Expr} {v : Value} (hlets : e.lets = 0)
    (h : evalTraced label order hosts env e count = .done v done) : done = [] := by
  have hsub := (sublist_of_evalTraced h).length_le
  rw [length_labels, hlets] at hsub
  exact List.length_eq_zero_iff.1 (Nat.le_zero.1 hsub)

/-- Operands without bindings compute none. -/
theorem done_eq_nil_of_letsList {short b : Bool} (hlets : letsList args = 0)
    (h : decideTraced label order hosts env short args count = .done b done) : done = [] := by
  have hsub := (sublist_of_decideTraced (fun e _ => sublist_of_evalTraced) h).length_le
  rw [length_labelsList fun e _ => length_labels e, hlets] at hsub
  exact List.length_eq_zero_iff.1 (Nat.le_zero.1 hsub)

/-- Different names of bindings, with numbers from `low` on and below `high`. -/
structure LetNames (low high : Nat) (names : List String) : Prop where
  nodup : names.Nodup
  number : ∀ x ∈ names, ∃ source number, x = letName source number ∧ low ≤ number ∧ number < high

namespace LetNames

variable {low mid high : Nat} {xs ys : List String}

theorem nil : LetNames low low [] := ⟨List.nodup_nil, fun _ hx => nomatch hx⟩

theorem append (h : LetNames low mid xs) (h' : LetNames mid high ys) (hlow : low ≤ mid)
    (hhigh : mid ≤ high) : LetNames low high (xs ++ ys) where
  nodup := by
    refine List.nodup_append.2 ⟨h.nodup, h'.nodup, fun x hx y hy heq => ?_⟩
    obtain ⟨source, number, rfl, -, hlt⟩ := h.number x hx
    obtain ⟨source', number', rfl, hle, -⟩ := h'.number y hy
    have := letName_injective heq
    omega
  number := by
    refine List.forall_mem_append.2 ⟨fun x hx => ?_, fun x hx => ?_⟩
    · obtain ⟨source, number, rfl, hle, hlt⟩ := h.number x hx
      exact ⟨source, number, rfl, hle, by omega⟩
    · obtain ⟨source, number, rfl, hle, hlt⟩ := h'.number x hx
      exact ⟨source, number, rfl, by omega, hlt⟩

theorem singleton (source : String) (number : Nat) :
    LetNames number (number + 1) [letName source number] where
  nodup := by simp
  number := List.forall_mem_singleton.2 ⟨source, number, rfl, by omega, by omega⟩

end LetNames

/-- Labels made of name and number tell the bindings of a tree apart. -/
theorem letNames_labels (e : Expr) (count : Nat) :
    LetNames count (count + e.lets) (labels letName e count) := by
  induction e using treeInduction generalizing count with
  | const | var => exact .nil
  | member inner field ih => exact ih count
  | unary op inner ih => exact ih count
  | binary op left right ihl ihr =>
    rw [lets, ← Nat.add_assoc]
    exact (ihl count).append (ihr _) (by omega) (by omega)
  | branch cond yes no ihc ihy ihn =>
    rw [lets, ← Nat.add_assoc, ← Nat.add_assoc]
    exact ((ihc count).append (ihy _) (by omega) (by omega)).append (ihn _) (by omega) (by omega)
  | bind name value body ihv ihb =>
    rw [lets, ← Nat.add_assoc, ← Nat.add_assoc]
    refine (ihv count).append ?_ (by omega) (by omega)
    exact (LetNames.singleton name _).append (ihb _) (by omega) (by omega)
  | call func args ih =>
    change LetNames count (count + letsList args) (labelsList letName args count)
    induction args generalizing count with
    | nil => exact .nil
    | cons e es ihes =>
      rw [List.forall_mem_cons] at ih
      rw [letsList, ← Nat.add_assoc]
      exact (ih.1 count).append (ihes ih.2 _) (by omega) (by omega)

end Labels

/-! ### Numbers -/

mutual

/-- Whether the bindings of a tree are named by their numbers, from `count` on. -/
def Numbered (count : Nat) : Expr → Prop
  | const _ | var _ => True
  | member inner _ | unary _ inner => Numbered count inner
  | binary _ left right => Numbered count left ∧ Numbered (count + left.lets) right
  | call _ args => NumberedList count args
  | branch cond yes no =>
    Numbered count cond ∧ Numbered (count + cond.lets) yes ∧
      Numbered (count + cond.lets + yes.lets) no
  | bind name value body =>
    Numbered count value ∧ (∃ source, name = letName source (count + value.lets)) ∧
      Numbered (count + value.lets + 1) body

/-- The same for a list of trees. -/
def NumberedList (count : Nat) : List Expr → Prop
  | [] => True
  | e :: es => Numbered count e ∧ NumberedList (count + e.lets) es

end

section Numbers

/-- Renaming counts the bindings of a tree, keeps their number, and names each one by it. -/
structure RenamedFrom (count : Nat) (e : Expr) (renamed : Expr × Nat) : Prop where
  count_eq : renamed.2 = count + e.lets
  lets_eq : renamed.1.lets = e.lets
  numbered : renamed.1.Numbered count

theorem renamedFrom_renameList {names : List (String × String)} {args : List Expr}
    (h : ∀ e ∈ args, ∀ count, RenamedFrom count e (rename names e count)) (count : Nat) :
    (renameList names args count).2 = count + letsList args ∧
      letsList (renameList names args count).1 = letsList args ∧
        NumberedList count (renameList names args count).1 := by
  induction args generalizing count with
  | nil => exact ⟨rfl, rfl, trivial⟩
  | cons e es ih =>
    rw [List.forall_mem_cons] at h
    obtain ⟨hcount, hlets, hnum⟩ := h.1 count
    obtain ⟨hcount', hlets', hnum'⟩ := ih h.2 (count + e.lets)
    simp only [renameList, letsList, NumberedList, hcount, hlets]
    exact ⟨by rw [hcount', Nat.add_assoc], by rw [hlets'], hnum, hnum'⟩

theorem renamedFrom_rename (names : List (String × String)) (e : Expr) (count : Nat) :
    RenamedFrom count e (rename names e count) := by
  induction e using treeInduction generalizing names count with
  | const | var => exact ⟨rfl, rfl, trivial⟩
  | member inner field ih => exact ⟨(ih names count).1, (ih names count).2, (ih names count).3⟩
  | unary op inner ih => exact ⟨(ih names count).1, (ih names count).2, (ih names count).3⟩
  | binary op left right ihl ihr =>
    obtain ⟨hcount, hlets, hnum⟩ := ihl names count
    obtain ⟨hcount', hlets', hnum'⟩ := ihr names (count + left.lets)
    constructor <;> simp only [rename, lets, Numbered, hcount, hlets]
    · rw [hcount', Nat.add_assoc]
    · rw [hlets']
    · exact ⟨hnum, hnum'⟩
  | branch cond yes no ihc ihy ihn =>
    obtain ⟨hcount, hlets, hnum⟩ := ihc names count
    obtain ⟨hcount', hlets', hnum'⟩ := ihy names (count + cond.lets)
    obtain ⟨hcount'', hlets'', hnum''⟩ := ihn names (count + cond.lets + yes.lets)
    constructor <;> simp only [rename, lets, Numbered, hcount, hlets, hcount', hlets']
    · rw [hcount'', Nat.add_assoc, Nat.add_assoc, Nat.add_assoc]
    · rw [hlets'']
    · exact ⟨hnum, hnum', hnum''⟩
  | bind name value body ihv ihb =>
    obtain ⟨hcount, hlets, hnum⟩ := ihv names count
    obtain ⟨hcount', hlets', hnum'⟩ :=
      ihb ((name, letName name (count + value.lets)) :: names) (count + value.lets + 1)
    constructor <;> simp only [rename, lets, Numbered, hcount, hlets]
    · rw [← letName, hcount']
      omega
    · rw [← letName, hlets']
    · exact ⟨hnum, ⟨name, rfl⟩, hnum'⟩
  | call func args ih =>
    obtain ⟨hcount, hlets, hnum⟩ :=
      renamedFrom_renameList (fun e he count => ih e he names count) count
    exact ⟨hcount, hlets, hnum⟩

@[simp] theorem rename_snd (names : List (String × String)) (e : Expr) (count : Nat) :
    (rename names e count).2 = count + e.lets :=
  (renamedFrom_rename names e count).count_eq

theorem numbered_rename (names : List (String × String)) (e : Expr) (count : Nat) :
    (rename names e count).1.Numbered count :=
  (renamedFrom_rename names e count).numbered

end Numbers

/-! ### Names before and after -/

/-- How names of a tree stand to the names of the renamed tree: the new ones are made ones with numbers
below `count`, and what is known of a name is known of its new name. -/
structure Renames {α : Type} (names : List (String × String)) (count : Nat)
    (before behind : List (String × α)) : Prop where
  made : ∀ p ∈ names, ∃ source number, p.2 = letName source number ∧ number < count
  lookup : ∀ {name a}, nameKind? name = none → before.lookup name = some a →
    behind.lookup ((names.lookup name).getD name) = some a

namespace Renames

variable {α : Type} {names : List (String × String)} {count count' : Nat}
  {before behind : List (String × α)}

theorem mono (h : Renames names count before behind) (hle : count ≤ count') :
    Renames names count' before behind where
  made p hp := by
    obtain ⟨source, number, heq, hlt⟩ := h.made p hp
    exact ⟨source, number, heq, by omega⟩
  lookup := h.lookup

/-- The new name of a name that is not a made one is that name itself, or it has a number below the
count; so it is not the next name that is made. -/
theorem getD_ne (h : Renames names count before behind) {name source : String}
    (hname : nameKind? name = none) (hle : count ≤ count') :
    (names.lookup name).getD name ≠ letName source count' := by
  intro heq
  cases hlookup : names.lookup name with
  | none =>
    rw [hlookup, Option.getD_none] at heq
    rw [heq, nameKind?_letName] at hname
    cases hname
  | some new =>
    rw [hlookup, Option.getD_some] at heq
    obtain ⟨l₁, l₂, hl, -⟩ := List.lookup_eq_some_iff.1 hlookup
    obtain ⟨source', number, hnew, hlt⟩ := h.made (name, new) (by rw [hl]; simp)
    have := letName_injective (hnew.symm.trans heq)
    omega

/-- Going under a binding. -/
theorem bind (h : Renames names count before behind) (name : String) (a : α) (hle : count ≤ count') :
    Renames ((name, letName name count') :: names) (count' + 1) ((name, a) :: before)
      ((letName name count', a) :: behind) where
  made := by
    refine List.forall_mem_cons.2 ⟨⟨name, count', rfl, by omega⟩, ?_⟩
    exact (h.mono (by omega : count ≤ count' + 1)).made
  lookup {x b} hx hb := by
    by_cases hxn : x = name
    · subst hxn
      rw [List.lookup_cons_self] at hb ⊢
      simpa using hb
    · have hne : (x == name) = false := by simpa using hxn
      have hfresh : ((names.lookup x).getD x == letName name count') = false := by
        simpa using h.getD_ne hx hle
      simp only [List.lookup_cons, hne] at hb ⊢
      simp only [hfresh]
      exact h.lookup hx hb

end Renames

variable {names : List (String × String)}

/-- A renamed tree has the type that the tree has. -/
theorem inferIn_rename {e : Expr} {count count' : Nat} {scope scope' : Scope} {ty : ValueType}
    (h : inferIn scope e = .ok ty) (hvars : ∀ x ∈ e.vars, nameKind? x = none)
    (hnames : Renames names count scope scope') (hle : count ≤ count') :
    inferIn scope' (rename names e count').1 = .ok ty := by
  induction e using treeInduction generalizing scope scope' ty names count count' with
  | const value => exact h
  | var name => exact inferIn_var.2 (hnames.lookup (hvars name (by simp [vars])) (inferIn_var.1 h))
  | member inner field ih =>
    obtain ⟨t, hinner, hfield⟩ := inferIn_member.1 h
    exact inferIn_member.2 ⟨t, ih hinner hvars hnames hle, hfield⟩
  | unary op inner ih =>
    obtain ⟨t, hinner, hop⟩ := inferIn_unary.1 h
    exact inferIn_unary.2 ⟨t, ih hinner hvars hnames hle, hop⟩
  | binary op left right ihl ihr =>
    obtain ⟨l, r, hl, hr, hop⟩ := inferIn_binary.1 h
    obtain ⟨hvl, hvr⟩ := List.forall_mem_append.1 hvars
    have hleft := ihl hl hvl hnames hle
    have hright := ihr hr hvr hnames (by rw [rename_snd]; omega : count ≤ (rename names left count').2)
    exact inferIn_binary.2 ⟨l, r, hleft, hright, hop⟩
  | branch cond yes no ihc ihy ihn =>
    obtain ⟨hc, hy, hn⟩ := inferIn_branch.1 h
    obtain ⟨hvcy, hvn⟩ := List.forall_mem_append.1 hvars
    obtain ⟨hvc, hvy⟩ := List.forall_mem_append.1 hvcy
    simp only [rename, rename_snd]
    exact inferIn_branch.2 ⟨ihc hc hvc hnames hle, ihy hy hvy hnames (by omega),
      ihn hn hvn hnames (by omega)⟩
  | bind name value body ihv ihb =>
    obtain ⟨t, hv, hb⟩ := inferIn_bind.1 h
    obtain ⟨hvv, hvb⟩ := List.forall_mem_append.1 hvars
    simp only [rename, rename_snd]
    rw [← letName]
    refine inferIn_bind.2 ⟨t, ihv hv hvv hnames hle, ?_⟩
    exact ihb hb hvb (hnames.bind name t (by omega)) (Nat.le_refl _)
  | call func args ih =>
    obtain ⟨tys, hargs, htype⟩ := inferIn_call.1 h
    refine inferIn_call.2 ⟨tys, ?_, htype⟩
    change ∀ x ∈ varsList args, _ at hvars
    clear h htype
    induction hargs generalizing count' with
    | nil => exact .nil
    | @cons e t es tys he _ ihes =>
      obtain ⟨hve, hves⟩ := List.forall_mem_append.1 hvars
      simp only [renameList, rename_snd]
      refine .cons (ih e (by simp) he hve hnames hle) ?_
      exact ihes (fun e he => ih e (by simp [he])) (by omega) hves

variable {order : FloatOrder} {hosts : Hosts}

/-- The label of a binding that has a name of its own. -/
def ownName (name : String) (_ : Nat) : String := name

/-- Each tree of a list computes the same before and after renaming. -/
def RenamesTraced (order : FloatOrder) (hosts : Hosts) (names : List (String × String)) (count : Nat)
    (env env' : Env) (args : List Expr) : Prop :=
  ∀ e ∈ args, ∀ count' ≥ count, ∀ own,
    (evalTraced letName order hosts env e count').value.Satisfies (fun _ => True) →
      evalTraced ownName order hosts env' (rename names e count').1 own =
        evalTraced letName order hosts env e count'

namespace RenamesTraced

variable {count count' own : Nat} {env env' : Env} {args : List Expr}

theorem evalTracedList {P : List Value → Prop}
    (hargs : RenamesTraced order hosts names count env env' args) (hle : count ≤ count')
    (h : (evalTracedList letName order hosts env args count').value.Satisfies P) :
    Expr.evalTracedList ownName order hosts env' (renameList names args count').1 own =
      Expr.evalTracedList letName order hosts env args count' := by
  induction args generalizing count' own P with
  | nil => rfl
  | cons e es ih =>
    simp only [renameList, rename_snd]
    refine Traced.bind_congr h (fun h => hargs e (by simp) count' hle own h) fun value h => ?_
    have hrest : RenamesTraced order hosts names count env env' es := fun e he =>
      hargs e (by simp [he])
    exact Traced.bind_congr h (fun h => ih hrest (by omega) h) fun _ _ => rfl

theorem decideTraced {P : Bool → Prop} {short : Bool}
    (hargs : RenamesTraced order hosts names count env env' args) (hle : count ≤ count')
    (h : (decideTraced letName order hosts env short args count').value.Satisfies P) :
    Expr.decideTraced ownName order hosts env' short (renameList names args count').1 own =
      Expr.decideTraced letName order hosts env short args count' := by
  induction args generalizing count' own P with
  | nil => rfl
  | cons e es ih =>
    simp only [renameList, rename_snd]
    refine Traced.bind_congr h (fun h => hargs e (by simp) count' hle own h) fun value h => ?_
    refine Traced.bind_congr h (fun _ => rfl) fun b h => ?_
    have hrest : RenamesTraced order hosts names count env env' es := fun e he =>
      hargs e (by simp [he])
    split
    · rfl
    · rename_i hb
      rw [if_neg hb] at h
      exact ih hrest (by omega) h

end RenamesTraced

theorem forall_mem_vars_of_mem {p : String → Prop} {args : List Expr} {e : Expr}
    (h : ∀ x ∈ varsList args, p x) (he : e ∈ args) : ∀ x ∈ e.vars, p x := by
  induction args with
  | nil => cases he
  | cons a args ih =>
    obtain ⟨ha, hargs⟩ := List.forall_mem_append.1 h
    rcases List.mem_cons.1 he with rfl | he
    · exact ha
    · exact ih hargs he

/-- A renamed tree computes the bindings that the tree computes, to the same value, as long as the tree
meets no fault that comes from its names or types. -/
theorem evalTraced_rename {e : Expr} {count count' own : Nat} {env env' : Env} {P : Value → Prop}
    (h : (eval order hosts env e).Satisfies P) (hvars : ∀ x ∈ e.vars, nameKind? x = none)
    (hnames : Renames names count env env') (hle : count ≤ count') :
    evalTraced ownName order hosts env' (rename names e count').1 own =
      evalTraced letName order hosts env e count' := by
  rw [← value_evalTraced letName env e count'] at h
  induction e using treeInduction generalizing env env' P names count count' own with
  | const value => rfl
  | var name =>
    have hplain := hvars name (by simp [vars])
    simp only [evalTraced, eval, rename]
    cases hlookup : env.lookup name with
    | some value => rw [hnames.lookup hplain hlookup]
    | none =>
      simp only [evalTraced, eval, hlookup, Traced.value_lift] at h
      cases h
  | member inner field ih =>
    exact Traced.bind_congr h (fun h => ih h hvars hnames hle) fun _ _ => rfl
  | unary op inner ih =>
    exact Traced.bind_congr h (fun h => ih h hvars hnames hle) fun _ _ => rfl
  | binary op left right ihl ihr =>
    obtain ⟨hvl, hvr⟩ := List.forall_mem_append.1 hvars
    simp only [rename, rename_snd]
    refine Traced.bind_congr h (fun h => ihl h hvl hnames hle) fun l h => ?_
    exact Traced.bind_congr h (fun h => ihr h hvr hnames (by omega)) fun _ _ => rfl
  | branch cond yes no ihc ihy ihn =>
    obtain ⟨hvcy, hvn⟩ := List.forall_mem_append.1 hvars
    obtain ⟨hvc, hvy⟩ := List.forall_mem_append.1 hvcy
    simp only [rename, rename_snd]
    refine Traced.bind_congr h (fun h => ihc h hvc hnames hle) fun value h => ?_
    refine Traced.bind_congr h (fun _ => rfl) fun b h => ?_
    cases b with
    | true => exact ihy h hvy hnames (by omega)
    | false => exact ihn h hvn hnames (by omega)
  | bind name value body ihv ihb =>
    obtain ⟨hvv, hvb⟩ := List.forall_mem_append.1 hvars
    simp only [rename, rename_snd]
    rw [← letName]
    refine Traced.bind_congr h (fun h => ihv h hvv hnames hle) fun x h => ?_
    refine Traced.bind_congr h (fun _ => rfl) fun _ h => ?_
    exact ihb h hvb (hnames.bind name x (by omega)) (Nat.le_refl _)
  | call func args ih =>
    have hargs : RenamesTraced order hosts names count env env' args := fun e he count' hle own h =>
      ih e he h (forall_mem_vars_of_mem hvars he) hnames hle
    by_cases hshort : func = .and ∨ func = .or
    · rcases hshort with rfl | rfl
      · exact Traced.bind_congr h (fun h => hargs.decideTraced hle h) fun _ _ => rfl
      · exact Traced.bind_congr h (fun h => hargs.decideTraced hle h) fun _ _ => rfl
    · rw [not_or] at hshort
      rw [evalTraced_call hshort.1 hshort.2] at h
      rw [rename, evalTraced_call hshort.1 hshort.2, evalTraced_call hshort.1 hshort.2]
      exact Traced.bind_congr h (fun h => hargs.evalTracedList hle h) fun _ _ => rfl

end Expr

end Barrage
