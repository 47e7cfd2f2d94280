import Barrage.Proofs.Expr.TypeSoundness

/-!
# Lexical scoping

Compiling puts slots of a frame in the place of names, and nothing is taken off the frame when the body
of a binding ends. This says what comes of that, for every tree, whether the checker accepts it or not.

A name is free in a tree where no binding around it has that name. A tree can be compiled if the
parameters have all of its free names, and otherwise the leftmost one that they lack is the error. The
code of a tree then does what the tree does over an environment of named values, in which the innermost
binding counts, and of equal parameters the last one. It comes to the same value or ends in the same
error. It never reads a slot outside of the frame: such a read would end the run in an error of its own,
and no operation on values ends in that one.

## Main definitions

* `Expr.free` — the free names of a tree, from left to right
* `Except.Closed` — that a computation does not end at a slot without a value

## Main results

* `Expr.compile_resolves` — a tree is compiled exactly if all of its free names are in scope
* `Expr.eval_closed` — a tree is evaluated without a slot that has no value, if its names have values
* `Callable.ofExpr_lexical` — the callable of a tree is the tree over an environment of its arguments
-/

namespace Barrage

/-! ### Free names -/

namespace Expr

mutual

/-- The names of a tree that no binding around them has, from left to right. -/
def free : Expr → List String
  | const _ => []
  | var name => [name]
  | member inner _ => free inner
  | unary _ inner => free inner
  | binary _ left right => free left ++ free right
  | call _ args => freeList args
  | branch cond yes no => free cond ++ free yes ++ free no
  | bind name value body => free value ++ (free body).filter (· ≠ name)

/-- The free names of a list of trees. -/
def freeList : List Expr → List String
  | [] => []
  | e :: es => free e ++ freeList es

end

/-- The leftmost free name of a list that is not in scope. -/
def unknown? (scope names : List String) : Option String := names.find? (· ∉ scope)

variable {scope names : List String}

theorem unknown?_append {more : List String} :
    unknown? scope (names ++ more) = (unknown? scope names).or (unknown? scope more) :=
  List.find?_append

/-- The names that are free behind a binding are unknown there if they are in the wider scope. -/
theorem unknown?_filter {name : String} :
    unknown? scope (names.filter (· ≠ name)) = unknown? (name :: scope) names := by
  rw [unknown?, unknown?, List.find?_filter]
  congr 1
  funext x
  by_cases hx : x = name <;> simp [hx]

theorem unknown?_reverse : unknown? scope.reverse names = unknown? scope names := by
  simp [unknown?]

theorem unknown?_eq_none_iff : unknown? scope names = none ↔ ∀ name ∈ names, name ∈ scope := by
  simp [unknown?]

end Expr

/-! ### Compiling -/

namespace Expr

variable {α β : Type}

/-- A compilation that fails exactly at an unknown name. -/
def Resolves (unknown : Option String) : Except TypeError α → Prop
  | .ok _ => unknown = none
  | .error err => ∃ name, unknown = some name ∧ err = .unknownVariable name

theorem Resolves.bind {first second : Option String} {r : Except TypeError α}
    {f : α → Except TypeError β} (h : Resolves first r) (hf : ∀ a, Resolves second (f a)) :
    Resolves (first.or second) (r >>= f) := by
  cases r with
  | error err =>
    obtain ⟨name, rfl, rfl⟩ := h
    exact ⟨name, rfl, rfl⟩
  | ok a =>
    obtain rfl : first = none := h
    exact hf a

theorem Resolves.eq_error_iff {unknown : Option String} {r : Except TypeError α} (h : Resolves unknown r)
    {err : TypeError} : r = .error err ↔ ∃ name, unknown = some name ∧ err = .unknownVariable name := by
  cases r with
  | error err' =>
    obtain ⟨name, rfl, rfl⟩ := h
    simp [eq_comm]
  | ok a =>
    obtain rfl : unknown = none := h
    simp

theorem Resolves.exists_ok_iff {unknown : Option String} {r : Except TypeError α}
    (h : Resolves unknown r) : (∃ a, r = .ok a) ↔ unknown = none := by
  cases r with
  | error err =>
    obtain ⟨name, rfl, rfl⟩ := h
    simp
  | ok a => exact ⟨fun _ => h, fun _ => ⟨a, rfl⟩⟩

/-- What follows the compilation of the parts cannot fail. -/
theorem Resolves.map {unknown : Option String} {r : Except TypeError α} (h : Resolves unknown r)
    (f : α → β) : Resolves unknown (r >>= fun a => .ok (f a)) := by
  cases r with
  | error err => exact h
  | ok a => exact h

theorem compileList_resolves {scope : List String} {es : List Expr}
    (h : ∀ e ∈ es, Resolves (unknown? scope e.free) (compile scope e)) :
    Resolves (unknown? scope (freeList es)) (compileList scope es) := by
  induction es with
  | nil => exact rfl
  | cons e es ih =>
    obtain ⟨he, hes⟩ := List.forall_mem_cons.1 h
    rw [freeList, unknown?_append, compileList]
    exact he.bind fun code => (ih hes).map _

/-- A tree is compiled exactly if all of its free names are in scope, and otherwise the leftmost one that
is not is the error. -/
theorem compile_resolves (e : Expr) (scope : List String) :
    Resolves (unknown? scope e.free) (compile scope e) := by
  -- The body of a binding is compiled in a wider scope, so the induction is for all scopes.
  induction e using treeInduction generalizing scope with
  | const value => exact rfl
  | var name =>
    rw [free, compile]
    by_cases hname : name ∈ scope
    · obtain ⟨index, hslot⟩ := exists_slot hname
      rw [hslot]
      exact unknown?_eq_none_iff.2 (by simpa using hname)
    · have hslot : slot? scope name = none := by
        rw [slot?, List.idxOf?_eq_none_iff.2 hname, Option.map_none]
      rw [hslot]
      exact ⟨name, by simp [unknown?, hname], rfl⟩
  | member inner field ih => exact (ih scope).map _
  | unary op inner ih => exact (ih scope).map _
  | binary op left right ihl ihr =>
    rw [free, unknown?_append, compile]
    exact (ihl scope).bind fun left => (ihr scope).map _
  | call func args ih =>
    rw [free, compile]
    exact (compileList_resolves fun e he => ih e he scope).map _
  | branch cond yes no ihc ihy ihn =>
    rw [free, List.append_assoc, unknown?_append, unknown?_append, compile]
    exact (ihc scope).bind fun cond => (ihy scope).bind fun yes => (ihn scope).map _
  | bind name value body ihv ihb =>
    rw [free, unknown?_append, unknown?_filter, compile]
    exact (ihv scope).bind fun value => (ihb (name :: scope)).map _

end Expr

/-! ### Reading no slot outside of the frame -/

end Barrage

namespace Except

open Barrage

variable {α β : Type}

/-- A computation that does not end at a slot without a value. -/
def Closed (r : Except EvalError α) : Prop := ∀ slot, r ≠ .error (.unboundSlot slot)

@[simp] theorem closed_ok (a : α) : Closed (ok a) := nofun

theorem Closed.bind {r : Except EvalError α} {f : α → Except EvalError β} (h : r.Closed)
    (hf : ∀ a, r = ok a → (f a).Closed) : (r >>= f).Closed := by
  cases r with
  | error err => exact fun slot heq => h slot (congrArg Except.error (Except.error.inj heq))
  | ok a => exact hf a rfl

@[simp] theorem closed_error {err : EvalError} :
    Closed (error err : Except EvalError α) ↔ ∀ slot, err ≠ .unboundSlot slot := by
  simp [Closed]

end Except

namespace Barrage

variable {order : FloatOrder} {hosts : Hosts}

namespace Value

theorem mismatch_ne_unboundSlot (v : Value) (expected : ValueType) (slot : Nat) :
    v.mismatch expected ≠ .unboundSlot slot := nofun

attribute [local simp] mismatch_ne_unboundSlot

theorem toBool_closed (v : Value) : v.toBool.Closed := by
  cases v <;> simp [toBool]

theorem toFloat_closed (v : Value) : v.toFloat.Closed := by
  cases v <;> simp [toFloat]

theorem checked_closed (operation : Arithmetic) (n : Option Int64) : (checked operation n).Closed := by
  cases n <;> simp [checked]

attribute [local simp] checked_closed

theorem member_closed (v : Value) (field : Member) : (v.member hosts field).Closed := by
  unfold member
  split <;> simp

theorem unary_closed (op : UnOp) (v : Value) : (unary op v).Closed := by
  unfold unary
  split <;> simp

theorem binary_closed (op : BinOp) (v w : Value) : (binary order op v w).Closed := by
  unfold binary
  -- Divisions of whole numbers look at the divisor first.
  split <;> try split
  all_goals simp

theorem plus_closed (v w : Value) : (plus v w).Closed := by
  unfold plus
  split <;> simp

theorem times_closed (v w : Value) : (times v w).Closed := by
  unfold times
  split <;> simp

theorem least_closed (v w : Value) : (least v w).Closed := by
  unfold least
  split <;> simp

theorem greatest_closed (v w : Value) : (greatest v w).Closed := by
  unfold greatest
  split <;> simp

theorem absolute_closed (v : Value) : v.absolute.Closed := by
  unfold absolute
  split <;> simp

theorem ofWhole_closed (v : Value) : v.ofWhole.Closed := by
  unfold ofWhole
  split <;> simp

end Value

namespace Func

theorem joinWith_closed {step : Value → Value → Except EvalError Value}
    (hstep : ∀ v w, (step v w).Closed) (first : Value) (rest : List Value) :
    (joinWith step first rest).Closed := by
  induction rest generalizing first with
  | nil => exact Except.closed_ok first
  | cons v rest ih => exact (hstep first v).bind fun w _ => ih w

theorem decideBy_closed (short acc : Bool) (values : List Value) : (decideBy short acc values).Closed := by
  induction values generalizing acc with
  | nil => exact Except.closed_ok acc
  | cons v rest ih =>
    rw [decideBy]
    split
    · exact Except.closed_ok acc
    · exact v.toBool_closed.bind fun b _ => ih b

theorem mapM_toFloat_closed (values : List Value) : (values.mapM Value.toFloat).Closed := by
  induction values with
  | nil => exact Except.closed_ok []
  | cons v rest ih =>
    rw [List.mapM_cons]
    exact v.toFloat_closed.bind fun x _ => ih.bind fun xs _ => Except.closed_ok (x :: xs)

theorem ofFloats_closed {f : List Float → Except EvalError Value} (hf : ∀ xs, (f xs).Closed)
    (values : List Value) : (ofFloats f values).Closed :=
  (mapM_toFloat_closed values).bind fun xs _ => hf xs

theorem apply_closed (func : Func) (values : List Value) : (func.apply values).Closed := by
  cases values with
  | nil => simp [apply]
  | cons first rest =>
    cases func with
    | add => exact joinWith_closed Value.plus_closed first rest
    | mul => exact joinWith_closed Value.times_closed first rest
    | min => exact joinWith_closed Value.least_closed first rest
    | max => exact joinWith_closed Value.greatest_closed first rest
    | and | or =>
      exact first.toBool_closed.bind fun b _ => (decideBy_closed _ b rest).bind
        fun b _ => Except.closed_ok _
    | abs => exact first.absolute_closed
    | toFloat => exact first.ofWhole_closed
    | sin | cos | sqrt | floor => exact first.toFloat_closed.bind fun x _ => Except.closed_ok _
    | vec2 | lerp | clamp => exact ofFloats_closed (fun xs => by split <;> simp) (first :: rest)

end Func

namespace Expr

variable {env : Env}

theorem evalList_closed {es : List Expr} (h : ∀ e ∈ es, (e.eval order hosts env).Closed) :
    (evalList order hosts env es).Closed := by
  induction es with
  | nil => exact Except.closed_ok []
  | cons e es ih =>
    obtain ⟨he, hes⟩ := List.forall_mem_cons.1 h
    exact he.bind fun v _ => (ih hes).bind fun vs _ => Except.closed_ok (v :: vs)

theorem evalDeciding_closed {short : Bool} {es : List Expr}
    (h : ∀ e ∈ es, (e.eval order hosts env).Closed) :
    (evalDeciding order hosts env short es).Closed := by
  induction es with
  | nil => exact Except.closed_ok _
  | cons e es ih =>
    obtain ⟨he, hes⟩ := List.forall_mem_cons.1 h
    refine he.bind fun v _ => v.toBool_closed.bind fun b _ => ?_
    split
    · exact Except.closed_ok short
    · exact ih hes

theorem mem_freeList {es : List Expr} {name : String} :
    name ∈ freeList es ↔ ∃ e ∈ es, name ∈ e.free := by
  induction es with
  | nil => simp [freeList]
  | cons e es ih => simp [freeList, ih]

/-- A tree whose free names have values is evaluated without a name that has none. -/
theorem eval_closed {e : Expr} (h : ∀ name ∈ e.free, name ∈ env.map Prod.fst) :
    (e.eval order hosts env).Closed := by
  -- What is free in the body of a binding is the bound name, or free in the binding.
  induction e using treeInduction generalizing env with
  | const value => exact Except.closed_ok value
  | var name =>
    rw [eval]
    cases hvalue : env.lookup name with
    | some value => exact Except.closed_ok value
    | none =>
      obtain ⟨entry, hentry, rfl⟩ := List.mem_map.1 (h name (List.mem_singleton_self name))
      exact absurd (List.lookup_eq_none_iff.1 hvalue entry hentry) (by simp)
  | member inner field ih => exact (ih h).bind fun v _ => v.member_closed field
  | unary op inner ih => exact (ih h).bind fun v _ => Value.unary_closed op v
  | binary op left right ihl ihr =>
    obtain ⟨hl, hr⟩ := List.forall_mem_append.1 h
    exact (ihl hl).bind fun v _ => (ihr hr).bind fun w _ => Value.binary_closed op v w
  | call func args ih =>
    have hargs : ∀ e ∈ args, (e.eval order hosts env).Closed := fun e he =>
      ih e he fun name hname => h name (mem_freeList.2 ⟨e, he, hname⟩)
    by_cases hand : func = .and
    · subst hand
      exact (evalDeciding_closed hargs).bind fun b _ => Except.closed_ok _
    by_cases hor : func = .or
    · subst hor
      exact (evalDeciding_closed hargs).bind fun b _ => Except.closed_ok _
    rw [eval_call hand hor]
    exact (evalList_closed hargs).bind fun values _ => func.apply_closed values
  | branch cond yes no ihc ihy ihn =>
    obtain ⟨hcy, hn⟩ := List.forall_mem_append.1 h
    obtain ⟨hc, hy⟩ := List.forall_mem_append.1 hcy
    refine (ihc hc).bind fun v _ => v.toBool_closed.bind fun b _ => ?_
    split
    · exact ihy hy
    · exact ihn hn
  | bind name value body ihv ihb =>
    obtain ⟨hv, hb⟩ := List.forall_mem_append.1 h
    refine (ihv hv).bind fun v _ => ihb fun x hx => ?_
    by_cases hname : x = name
    · simp [hname]
    · exact List.mem_cons_of_mem _ (hb x (List.mem_filter.2 ⟨hx, by simpa using hname⟩))

end Expr

/-- Code runs without reading a slot outside of the frame if the environment of its tree has values for
all names. -/
theorem Code.run_closed {env : Expr.Env} {e : Expr} {code : Code} {frame : Frame}
    (hcode : e.compile (env.map Prod.fst) = .ok code) (hframe : frame.Holds env) :
    (code.run order hosts frame).Closed := by
  have hresolves := Expr.compile_resolves e (env.map Prod.fst)
  rw [hcode] at hresolves
  have hclosed : (e.eval order hosts env).Closed :=
    Expr.eval_closed (Expr.unknown?_eq_none_iff.1 hresolves)
  have hagrees : Agrees env (code.run order hosts frame) (e.eval order hosts env) :=
    Code.run_agrees hcode hframe
  -- Code ends in the error of its tree, and the tree does not end in this one.
  intro slot hrun
  rw [hrun] at hagrees
  cases heval : e.eval order hosts env with
  | ok v => exact absurd (heval ▸ hagrees) (by simp [Agrees])
  | error err =>
    rw [heval] at hagrees hclosed
    exact hclosed slot (congrArg Except.error hagrees.symm)

namespace Callable

variable {e : Expr} {params : List Param} {returns : ValueType}

/-- A callable is made where the code of its tree is. -/
theorem ofExpr_resolves :
    Expr.Resolves (Expr.unknown? (params.map (·.name)) e.free) (ofExpr e params returns) := by
  rw [← Expr.unknown?_reverse]
  exact (Expr.compile_resolves e (params.map (·.name)).reverse).map _

theorem ofExpr_eq_ok_iff {c : Callable} : ofExpr e params returns = .ok c ↔
    ∃ code, e.compile (params.map (·.name)).reverse = .ok code ∧
      c = ⟨Signature.of params returns, [], .code code⟩ := by
  simp only [ofExpr, Except.bind_eq_ok_iff, Except.ok.injEq, eq_comm (b := c)]

/-- The callable of a tree, well typed or not, is the tree under lexical scoping. It exists exactly if
every free name is a parameter, and the leftmost name that is none is the error otherwise. On as many
arguments as there are parameters its code comes to what the tree does over the environment of the
arguments, under any comparison of floats, and reads no slot outside of the frame. A call with arguments
of the declared types is that evaluation, and then the test of the type of the result. -/
theorem ofExpr_lexical (e : Expr) (params : List Param) (returns : ValueType) :
    (∀ err, ofExpr e params returns = .error err ↔
      ∃ name, Expr.unknown? (params.map (·.name)) e.free = some name ∧ err = .unknownVariable name) ∧
    ((∃ c, ofExpr e params returns = .ok c) ↔ ∀ name ∈ e.free, ∃ param ∈ params, param.name = name) ∧
    ∀ c, ofExpr e params returns = .ok c →
      c.signature = Signature.of params returns ∧ c.bound = [] ∧
      (∃ code, c.body = .code code ∧
        ∀ (order : FloatOrder) (hosts : Hosts) (args : List Value), args.length = params.length →
          (code.run order hosts args).map Prod.fst = e.eval order hosts (Expr.Env.of params args) ∧
          ∀ slot, code.run order hosts args ≠ .error (.unboundSlot slot)) ∧
      ∀ (hosts : Hosts) (args : List Value), args.map Value.type = params.map (·.type) →
        c.invoke args hosts =
          (e.eval .exact hosts (Expr.Env.of params args) >>= fun v =>
            if v.type = returns then .ok v else .error (.returnType returns v.type.name), hosts) := by
  have hresolves : Expr.Resolves (Expr.unknown? (params.map (·.name)) e.free)
      (ofExpr e params returns) := ofExpr_resolves
  refine ⟨fun err => hresolves.eq_error_iff, ?_, fun c hc => ?_⟩
  · rw [hresolves.exists_ok_iff, Expr.unknown?_eq_none_iff]
    simp only [List.mem_map]
  obtain ⟨code, hcode, rfl⟩ := ofExpr_eq_ok_iff.1 hc
  refine ⟨rfl, rfl, ⟨code, rfl, fun order hosts args hlength => ⟨?_, ?_⟩⟩, fun hosts args hargs => ?_⟩
  · exact Code.run_eq_eval hcode hlength order hosts
  · exact Code.run_closed (by rw [Expr.Env.names_of hlength]; exact hcode) (Expr.Env.holds_of hlength)
  have hlength : args.length = params.length := by simpa using congrArg List.length hargs
  rw [invoke_eq hosts hargs]
  simp only [runBody, List.nil_append, Signature.of, Code.run_eq_eval hcode hlength]
  cases e.eval .exact hosts (Expr.Env.of params args) with
  | error err => rfl
  | ok v =>
    by_cases hv : v.type = returns
    · simp [hv]
    · simp [hv]

/-- A binding hides another of its name, a sibling reads the hidden one again, and two parameters share a
name. -/
theorem ofExpr_lexical_shadowing :
    let x : Expr := .var "x"
    let a : Expr := .var "a"
    let e : Expr := .bind "x" (.call .add [a, a])
      (.call .add [.bind "x" (.call .mul [x, a]) x, .bind "y" x (.call .add [.var "y", x])])
    let params : List Param := [⟨"a", .int⟩, ⟨"a", .int⟩]
    ∃ c, ofExpr e params .int = .ok c ∧ c.invoke [.int 5, .int 2] {} = (.ok (.int 16), {}) := by
  intro x a e params
  obtain ⟨-, hexists, hmeans⟩ := ofExpr_lexical e params .int
  obtain ⟨c, hc⟩ := hexists.2 (by decide)
  obtain ⟨-, -, -, hinvoke⟩ := hmeans c hc
  exact ⟨c, hc, (hinvoke {} [.int 5, .int 2] rfl).trans rfl⟩

end Callable

end Barrage
