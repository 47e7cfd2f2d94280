import Barrage.Expr.Flatten
import Barrage.Proofs.Expr.OperandTypes

/-!
# Well-typed trees

The checker computes a type or reports the first error. What a proof needs to know of a tree that has a
type is what its parts have: one equivalence for each kind of node. Flattening a tree keeps its type,
because the arguments that a nested call contributes to the call around it can stand in its place as far
as the table of the function is concerned.

## Main definitions

* `Expr.Env.Typed` — an environment whose values have the types of a scope

## Main results

* `Expr.inferIn_call`, `Expr.inferIn_bind` and the like — the type of a node from those of its parts
* `Func.type_splice` — nested calls of an associative function may be joined
* `Expr.inferIn_flatten` — flattening keeps types
* `Expr.eval_yields` — a well-typed tree evaluates to a value of its type or to an arithmetic fault
-/

namespace Barrage

namespace Expr

variable {scope : Scope} {ty : ValueType}

/-! ### The type of a node -/

theorem inferIn_member {inner : Expr} {field : Member} :
    inferIn scope (member inner field) = .ok ty ↔
      ∃ t, inferIn scope inner = .ok t ∧ field.type? t = some ty := by
  rw [inferIn, Except.bind_eq_ok_iff]
  refine exists_congr fun t => and_congr_right fun _ => ?_
  cases field.type? t <;> simp

theorem orOperands_eq_ok_iff {op : String} {types : List ValueType} {r : Option ValueType} :
    orOperands op types r = .ok ty ↔ r = some ty := by
  cases r <;> simp [orOperands]

theorem inferIn_unary {op : UnOp} {inner : Expr} :
    inferIn scope (unary op inner) = .ok ty ↔
      ∃ t, inferIn scope inner = .ok t ∧ op.type? t = some ty := by
  rw [inferIn, Except.bind_eq_ok_iff]
  exact exists_congr fun t => and_congr_right fun _ => orOperands_eq_ok_iff

theorem inferIn_binary {op : BinOp} {left right : Expr} :
    inferIn scope (binary op left right) = .ok ty ↔
      ∃ l r, inferIn scope left = .ok l ∧ inferIn scope right = .ok r ∧ op.type? l r = some ty := by
  simp only [inferIn, Except.bind_eq_ok_iff, orOperands_eq_ok_iff]
  exact ⟨fun ⟨l, hl, r, h⟩ => ⟨l, r, hl, h⟩, fun ⟨l, r, hl, h⟩ => ⟨l, hl, r, h⟩⟩

theorem inferList_eq_ok_iff {es : List Expr} {tys : List ValueType} :
    inferList scope es = .ok tys ↔ List.Forall₂ (fun e ty => inferIn scope e = .ok ty) es tys := by
  induction es generalizing tys with
  | nil => simp [inferList, eq_comm]
  | cons e es ih =>
    simp only [inferList, Except.bind_eq_ok_iff, ih, List.forall₂_cons_left_iff, Except.ok.injEq]
    constructor
    · rintro ⟨ty, he, tys', hes, rfl⟩
      exact ⟨ty, tys', he, hes, rfl⟩
    · rintro ⟨ty, tys', he, hes, rfl⟩
      exact ⟨ty, he, tys', hes, rfl⟩

theorem inferIn_call {func : Func} {args : List Expr} :
    inferIn scope (call func args) = .ok ty ↔
      ∃ tys, List.Forall₂ (fun e ty => inferIn scope e = .ok ty) args tys ∧
        func.type tys = .ok ty := by
  simp only [inferIn, Except.bind_eq_ok_iff, inferList_eq_ok_iff]

theorem inferIn_branch {cond yes no : Expr} :
    inferIn scope (branch cond yes no) = .ok ty ↔
      inferIn scope cond = .ok .bool ∧ inferIn scope yes = .ok ty ∧ inferIn scope no = .ok ty := by
  simp only [inferIn, Except.bind_eq_ok_iff]
  constructor
  · rintro ⟨c, hc, h⟩
    split at h
    · cases h
    · rename_i hbool
      obtain ⟨y, hy, n, hn, h⟩ := by simpa only [Except.bind_eq_ok_iff] using h
      split at h
      · rename_i heq
        cases h
        exact ⟨by simpa [Decidable.not_not.1 hbool] using hc, hy, heq ▸ hn⟩
      · cases h
  · rintro ⟨hc, hy, hn⟩
    exact ⟨.bool, hc, by simp [hy, hn]⟩

theorem inferIn_bind {name : String} {value body : Expr} :
    inferIn scope (bind name value body) = .ok ty ↔
      ∃ t, inferIn scope value = .ok t ∧ inferIn ((name, t) :: scope) body = .ok ty := by
  rw [inferIn, Except.bind_eq_ok_iff]

theorem inferIn_var {name : String} :
    inferIn scope (var name) = .ok ty ↔ scope.lookup name = some ty := by
  rw [inferIn]
  cases scope.lookup name <;> simp

theorem inferIn_const {value : Value} : inferIn scope (const value) = .ok ty ↔ value.type = ty := by
  simp [inferIn]

end Expr

/-! ### Joining nested calls -/

namespace Func

variable {kinds pre mid post : List ValueType} {ty t : ValueType}

theorem forall_mem_splice {p : ValueType → Prop} (h : ∀ u ∈ pre ++ t :: post, p u)
    (hmid : ∀ u ∈ mid, p u) : ∀ u ∈ pre ++ mid ++ post, p u := by
  intro u hu
  rw [List.mem_append, List.mem_append] at hu
  rcases hu with (hu | hu) | hu
  · exact h u (by simp [hu])
  · exact hmid u hu
  · exact h u (by simp [hu])

theorem Uniform.splice (h : Uniform kinds (pre ++ t :: post) ty) (hmid : Uniform kinds mid t) :
    Uniform kinds (pre ++ mid ++ post) ty where
  kind := h.kind
  head := by
    obtain rfl := h.all t (by simp)
    cases pre with
    | nil => simp [hmid.head]
    | cons p pre => exact h.head
  all := by
    obtain rfl := h.all t (by simp)
    exact forall_mem_splice h.all hmid.all

/-- A product within a product: it is one of numbers, or it is the vector that the others scale. -/
theorem Scaled.splice (h : Scaled (pre ++ t :: post))
    (hmid : Uniform [.float, .int] mid t ∨ (t = .vec2 ∧ Scaled mid)) :
    Scaled (pre ++ mid ++ post) := by
  have hcount : pre.count .vec2 + mid.count .vec2 + post.count .vec2 = 1 := by
    have := h.count
    rw [List.count_append, List.count_cons] at this
    rcases hmid with hmid | ⟨rfl, hmid⟩
    · have hnone : mid.count .vec2 = 0 := by
        rw [List.count_eq_zero]
        intro hmem
        have := hmid.kind
        simp [← hmid.all _ hmem] at this
      have ht : t ≠ .vec2 := by
        rintro rfl
        simpa using hmid.kind
      simp [ht] at this
      omega
    · simp at this
      rw [hmid.count]
      omega
  constructor
  · rw [List.count_append, List.count_append]
    exact hcount
  · refine forall_mem_splice h.all fun u hu => ?_
    rcases hmid with hmid | ⟨rfl, hmid⟩
    · exact hmid.all u hu ▸ h.all t (by simp)
    · exact hmid.all u hu

/-- The arguments of a nested call of the same function may take its place. -/
theorem type_splice {func : Func} (hassoc : func.isAssociative = true)
    (h : func.type (pre ++ t :: post) = .ok ty) (hmid : func.type mid = .ok t) :
    func.type (pre ++ mid ++ post) = .ok ty := by
  rw [type_eq_ok_iff] at h hmid ⊢
  obtain ⟨htakes, htype⟩ := h
  obtain ⟨hmtakes, hmtype⟩ := hmid
  have hnone : func.arity? = none := by simpa [isAssociative] using hassoc
  refine ⟨?_, ?_⟩
  · simp only [takes, hnone, decide_eq_true_eq, List.length_append, List.length_cons] at htakes hmtakes ⊢
    omega
  · cases func <;> simp only [arity?, reduceCtorEq] at hnone
    case add => exact type?_add.2 ((type?_add.1 htype).splice (type?_add.1 hmtype))
    case mul =>
      rw [type?_mul] at htype hmtype ⊢
      rcases htype with hu | ⟨rfl, hs⟩
      · rcases hmtype with hmu | ⟨rfl, -⟩
        · exact .inl (hu.splice hmu)
        · obtain rfl := hu.all .vec2 (by simp)
          simpa using hu.kind
      · exact .inr ⟨rfl, hs.splice hmtype⟩
    case min => exact type?_min.2 ((type?_min.1 htype).splice (type?_min.1 hmtype))
    case max => exact type?_max.2 ((type?_max.1 htype).splice (type?_max.1 hmtype))
    case and =>
      rw [type?_and] at htype hmtype ⊢
      exact ⟨htype.1, forall_mem_splice htype.2 hmtype.2⟩
    case or =>
      rw [type?_or] at htype hmtype ⊢
      exact ⟨htype.1, forall_mem_splice htype.2 hmtype.2⟩

end Func

namespace Expr

/-- What an argument contributes to a call has types that can stand in the place of its own. -/
theorem types_splice {scope : Scope} (func : Func) {e : Expr} {t : ValueType}
    (h : inferIn scope e = .ok t) :
    ∃ mid, List.Forall₂ (fun e ty => inferIn scope e = .ok ty) (splice func e) mid ∧
      ∀ {pre post ty}, func.type (pre ++ t :: post) = .ok ty →
        func.type (pre ++ mid ++ post) = .ok ty := by
  have single : ∃ mid, List.Forall₂ (fun e ty => inferIn scope e = .ok ty) [e] mid ∧
      ∀ {pre post ty}, func.type (pre ++ t :: post) = .ok ty →
        func.type (pre ++ mid ++ post) = .ok ty :=
    ⟨[t], by simpa using h, fun h => by simpa using h⟩
  cases e with
  | call inner args =>
    rw [splice]
    split
    · rename_i hinner
      obtain ⟨rfl, hassoc⟩ := hinner
      obtain ⟨tys, hargs, htype⟩ := inferIn_call.1 h
      exact ⟨tys, hargs, fun hpre => Func.type_splice hassoc hpre htype⟩
    · exact single
  | _ => exact single

/-- Flattening keeps types. -/
theorem inferIn_flatten {e : Expr} {scope : Scope} {ty : ValueType}
    (h : inferIn scope e = .ok ty) : inferIn scope e.flatten = .ok ty := by
  induction e using treeInduction generalizing scope ty with
  | const value => exact h
  | var name => exact h
  | member inner field ih =>
    obtain ⟨t, hinner, hfield⟩ := inferIn_member.1 h
    exact inferIn_member.2 ⟨t, ih hinner, hfield⟩
  | unary op inner ih =>
    obtain ⟨t, hinner, hop⟩ := inferIn_unary.1 h
    exact inferIn_unary.2 ⟨t, ih hinner, hop⟩
  | binary op left right ihl ihr =>
    obtain ⟨l, r, hl, hr, hop⟩ := inferIn_binary.1 h
    exact inferIn_binary.2 ⟨l, r, ihl hl, ihr hr, hop⟩
  | branch cond yes no ihc ihy ihn =>
    obtain ⟨hc, hy, hn⟩ := inferIn_branch.1 h
    exact inferIn_branch.2 ⟨ihc hc, ihy hy, ihn hn⟩
  | bind name value body ihv ihb =>
    obtain ⟨t, hv, hb⟩ := inferIn_bind.1 h
    exact inferIn_bind.2 ⟨t, ihv hv, ihb hb⟩
  | call func args ih =>
    obtain ⟨tys, hargs, htype⟩ := inferIn_call.1 h
    rw [flatten, inferIn_call]
    -- The arguments are spliced from left to right; `pre` holds the types of those that are done.
    suffices hpre : ∀ pre, func.type (pre ++ tys) = .ok ty →
        ∃ tys', List.Forall₂ (fun e ty => inferIn scope e = .ok ty) (flattenArgs func args) tys' ∧
          func.type (pre ++ tys') = .ok ty from hpre [] htype
    clear h htype
    induction hargs with
    | nil => exact fun pre hpre => ⟨[], .nil, hpre⟩
    | @cons e t es tys he hes ihes =>
      intro pre hpre
      obtain ⟨mid, hmid, hsplice⟩ := types_splice func (ih e (by simp) he)
      obtain ⟨tys', hrest, htype⟩ :=
        ihes (fun e he => ih e (by simp [he])) (pre ++ mid) (hsplice hpre)
      rw [List.append_assoc] at htype
      exact ⟨mid ++ tys', List.rel_append hmid hrest, htype⟩

/-! ### Values of well-typed trees -/

/-- An environment whose values have the types of a scope, name by name. -/
def Env.Typed (env : Env) (scope : Scope) : Prop :=
  List.Forall₂ (fun x b => x.1 = b.1 ∧ x.2.type = b.2) env scope

namespace Env.Typed

variable {env : Env} {scope : Scope} {name : String} {ty : ValueType}

theorem cons {value : Value} (h : Typed env scope) (hv : value.type = ty) :
    Typed ((name, value) :: env) ((name, ty) :: scope) :=
  List.Forall₂.cons ⟨rfl, hv⟩ h

/-- A name of the scope has a value of its type. -/
theorem lookup (h : Typed env scope) (hty : scope.lookup name = some ty) :
    ∃ value, env.lookup name = some value ∧ value.type = ty := by
  induction h with
  | nil => cases hty
  | @cons x b env scope hxb _ ih =>
    obtain ⟨x, value⟩ := x
    obtain ⟨y, t⟩ := b
    obtain ⟨rfl, rfl⟩ : x = y ∧ value.type = t := hxb
    by_cases hx : name = x
    · subst hx
      simp only [List.lookup_cons_self, Option.some.injEq] at hty ⊢
      exact ⟨value, rfl, hty⟩
    · have hne : (name == x) = false := by simpa using hx
      simp only [List.lookup_cons, hne] at hty ⊢
      exact ih hty

end Env.Typed

variable {order : FloatOrder} {hosts : Hosts}

/-- The arguments of a call have values of their types. -/
theorem evalList_satisfies {env : Env} {args : List Expr} {tys : List ValueType}
    (hargs : List.Forall₂ (fun e ty => Yields ty (eval order hosts env e)) args tys) :
    (evalList order hosts env args).Satisfies fun values => values.map Value.type = tys := by
  induction hargs with
  | nil => rfl
  | cons he _ ih =>
    exact he.bind fun value hv => ih.bind fun values hvs => by simp [hv, hvs]

theorem evalDeciding_satisfies {env : Env} {args : List Expr} {short : Bool}
    (hargs : ∀ e ∈ args, Yields .bool (eval order hosts env e)) :
    (evalDeciding order hosts env short args).Satisfies fun _ => True := by
  induction args with
  | nil => exact trivial
  | cons e es ih =>
    refine (hargs e (by simp)).bind fun value hv => (Value.toBool_satisfies hv).bind fun b _ => ?_
    split
    · exact trivial
    · exact ih fun e he => hargs e (by simp [he])

/-- A call of a function that does not decide early evaluates its arguments first. -/
theorem eval_call {env : Env} {func : Func} {args : List Expr} (hand : func ≠ .and)
    (hor : func ≠ .or) :
    eval order hosts env (call func args) = evalList order hosts env args >>= func.apply := by
  cases func <;> first | contradiction | rfl

/-- A well-typed tree evaluates to a value of its type or to an arithmetic fault. -/
theorem eval_yields {e : Expr} {scope : Scope} {ty : ValueType} {env : Env}
    (h : inferIn scope e = .ok ty) (henv : env.Typed scope) :
    Yields ty (eval order hosts env e) := by
  induction e using treeInduction generalizing scope ty env with
  | const value => exact inferIn_const.1 h
  | var name =>
    obtain ⟨value, hlookup, hty⟩ := henv.lookup (inferIn_var.1 h)
    rw [eval, hlookup]
    exact hty
  | member inner field ih =>
    obtain ⟨t, hinner, hfield⟩ := inferIn_member.1 h
    exact (ih hinner henv).bind fun v hv => Value.member_yields (hv ▸ hfield)
  | unary op inner ih =>
    obtain ⟨t, hinner, hop⟩ := inferIn_unary.1 h
    exact (ih hinner henv).bind fun v hv => Value.unary_yields (hv ▸ hop)
  | binary op left right ihl ihr =>
    obtain ⟨l, r, hl, hr, hop⟩ := inferIn_binary.1 h
    exact (ihl hl henv).bind fun v hv => (ihr hr henv).bind fun w hw =>
      Value.binary_yields (hv ▸ hw ▸ hop)
  | branch cond yes no ihc ihy ihn =>
    obtain ⟨hc, hy, hn⟩ := inferIn_branch.1 h
    refine (ihc hc henv).bind fun v hv => (Value.toBool_satisfies hv).bind fun b _ => ?_
    split
    · exact ihy hy henv
    · exact ihn hn henv
  | bind name value body ihv ihb =>
    obtain ⟨t, hv, hb⟩ := inferIn_bind.1 h
    exact (ihv hv henv).bind fun v hv => ihb hb (henv.cons hv)
  | call func args ih =>
    obtain ⟨tys, hargs, htype⟩ := inferIn_call.1 h
    have hyields : List.Forall₂ (fun e ty => Yields ty (eval order hosts env e)) args tys :=
      hargs.imp_of_mem fun e t he h => ih e he h henv
    by_cases hshort : func = .and ∨ func = .or
    · have hbool : ty = .bool ∧ ∀ t ∈ tys, t = .bool := by
        have htype := (Func.type_eq_ok_iff.1 htype).2
        rcases hshort with rfl | rfl
        · exact Func.type?_and.1 htype
        · exact Func.type?_or.1 htype
      have hargs : ∀ e ∈ args, Yields .bool (eval order hosts env e) := by
        intro e he
        obtain ⟨t, ht, hy⟩ := hyields.exists_of_mem_left he
        exact hbool.2 t ht ▸ hy
      obtain ⟨rfl, -⟩ := hbool
      rcases hshort with rfl | rfl
      · exact (evalDeciding_satisfies hargs).bind fun b _ => rfl
      · exact (evalDeciding_satisfies hargs).bind fun b _ => rfl
    · rw [not_or] at hshort
      rw [eval_call hshort.1 hshort.2]
      exact (evalList_satisfies hyields).bind fun values hvs => Func.apply_yields (hvs ▸ htype)

end Expr

end Barrage
