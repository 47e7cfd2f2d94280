import Mathlib.Data.List.Forall2
import Barrage.Expr.Typing
import Barrage.Proofs.Expr.Trees

/-!
# Operations respect the tables of types

The checker and the evaluators each have a table of cases: which operand types an operator, a member or
a function is defined for, and what it does to values. This file compares the two. Whenever the checker
gives a result type for some operand types, the operation on operands of these types ends in a value of
that type or in an arithmetic fault.

Sums, products and the like take any number of operands, of which they join the next one to what they
have so far. So each of them needs an invariant of what it has so far; for a product this is that the one
vector has been met or is still ahead.

## Main definitions

* `Yields` — a computation ends in a value of a type, or in an arithmetic fault

## Main results

* `Value.member_yields`, `Value.unary_yields`, `Value.binary_yields` — members and operators
* `Func.apply_yields` — functions on any number of arguments
-/

namespace Barrage

/-- A computation ends in a value of a type, or in an arithmetic fault. -/
abbrev Yields (ty : ValueType) (r : Except EvalError Value) : Prop := r.Satisfies (·.type = ty)

namespace Value

variable {v w : Value} {ty result : ValueType} {hosts : Hosts} {order : FloatOrder}

theorem checked_yields (operation : Arithmetic) (n : Option Int64) :
    Yields .int (checked operation n) := by
  cases n <;> simp [checked, type, EvalError.isArithmetic]

theorem exists_bool (h : v.type = .bool) : ∃ b, v = bool b := by
  cases v <;> simp [type] at h ⊢

theorem exists_float (h : v.type = .float) : ∃ x, v = float x := by
  cases v <;> simp [type] at h ⊢

theorem exists_int (h : v.type = .int) : ∃ n, v = int n := by
  cases v <;> simp [type] at h ⊢

/-- A member that the type has can be read. -/
theorem member_yields {field : Member} (h : field.type? v.type = some result) :
    Yields result (v.member hosts field) := by
  cases field <;> cases v <;> simp_all [Member.type?, type, member]

theorem unary_yields {op : UnOp} (h : op.type? v.type = some result) :
    Yields result (unary op v) := by
  cases op <;> cases v <;> simp_all [UnOp.type?, type, unary]
  all_goals subst h
  exact checked_yields _ _

theorem binary_yields {op : BinOp} (h : op.type? v.type w.type = some result) :
    Yields result (binary order op v w) := by
  cases op <;> cases v <;> cases w <;>
    simp_all [BinOp.type?, type, binary, ValueType.hasEquality]
  all_goals subst h
  · exact checked_yields _ _
  -- Division and remainder test for zero before they compute.
  all_goals
    split
    · exact trivial
    · exact checked_yields _ _

theorem toBool_satisfies (h : v.type = .bool) : v.toBool.Satisfies fun b => v = bool b := by
  obtain ⟨b, rfl⟩ := exists_bool h
  rfl

/-! ### Steps of sums, products, minima and maxima -/

theorem plus_yields (h : ty = .float ∨ ty = .int ∨ ty = .vec2) (hv : v.type = ty)
    (hw : w.type = ty) : Yields ty (v.plus w) := by
  rcases h with rfl | rfl | rfl <;> cases v <;> cases w <;> simp_all [type, plus]
  exact checked_yields _ _

theorem times_yields (h : ty = .float ∨ ty = .int) (hv : v.type = ty) (hw : w.type = ty) :
    Yields ty (v.times w) := by
  rcases h with rfl | rfl <;> cases v <;> cases w <;> simp_all [type, times]
  exact checked_yields _ _

/-- Scaling: of a vector and a number the product is a vector, and of two numbers a number. So as many
vectors are left as there were. -/
theorem times_scaled (hv : v.type = .float ∨ v.type = .vec2) (hw : w.type = .float ∨ w.type = .vec2)
    (hcount : [v.type, w.type].count .vec2 ≤ 1) :
    (v.times w).Satisfies fun u => (u.type = .float ∨ u.type = .vec2) ∧
      [u.type].count .vec2 = [v.type, w.type].count .vec2 := by
  rcases hv with hv | hv <;> rcases hw with hw | hw <;>
    cases v <;> cases w <;> simp_all [type, times]

theorem least_yields (h : ty = .float ∨ ty = .int) (hv : v.type = ty) (hw : w.type = ty) :
    Yields ty (v.least w) := by
  rcases h with rfl | rfl <;> cases v <;> cases w <;> simp_all [type, least]

theorem greatest_yields (h : ty = .float ∨ ty = .int) (hv : v.type = ty) (hw : w.type = ty) :
    Yields ty (v.greatest w) := by
  rcases h with rfl | rfl <;> cases v <;> cases w <;> simp_all [type, greatest]

theorem absolute_yields (h : v.type = .float ∨ v.type = .int) : Yields v.type v.absolute := by
  cases v <;> simp_all [type, absolute]
  exact checked_yields _ _

theorem ofWhole_yields (h : v.type = .int) : Yields .float v.ofWhole := by
  obtain ⟨n, rfl⟩ := exists_int h
  rfl

end Value

namespace Func

variable {ty result : ValueType} {types : List ValueType} {args : List Value}

theorem type_eq_ok_iff {func : Func} :
    func.type types = .ok ty ↔ func.takes types.length = true ∧ func.type? types = some ty := by
  unfold type
  split
  · cases h : func.type? types <;> simp_all
  · simp_all

theorem allOf_iff : allOf ty types = true ↔ ∀ t ∈ types, t = ty := by
  simp [allOf]

/-- The operands are of one type, which is one of some kinds. -/
structure Uniform (kinds types : List ValueType) (ty : ValueType) : Prop where
  head : types.head? = some ty
  kind : ty ∈ kinds
  all : ∀ t ∈ types, t = ty

/-- The operands are numbers but for one vector, which they scale. -/
structure Scaled (types : List ValueType) : Prop where
  count : types.count .vec2 = 1
  all : ∀ t ∈ types, t = .float ∨ t = .vec2

theorem uniform_of_allOf {kinds : List ValueType} {t : ValueType} (hall : allOf t types = true)
    (hkind : t ∈ kinds) (hhead : types.head? = some ty) : Uniform kinds types ty := by
  have hall := allOf_iff.1 hall
  obtain rfl := hall ty (List.mem_of_head? hhead)
  exact ⟨hhead, hkind, hall⟩

theorem Uniform.allOf {kinds : List ValueType} (h : Uniform kinds types ty) :
    allOf ty types = true :=
  allOf_iff.2 h.all

theorem type?_add : add.type? types = some ty ↔ Uniform [.float, .int, .vec2] types ty := by
  simp only [type?]
  constructor
  · intro h
    split at h
    · rename_i hall
      simp only [Bool.or_eq_true] at hall
      rcases hall with (hall | hall) | hall <;> exact uniform_of_allOf hall (by simp) h
    · simp at h
  · intro h
    have hall := h.allOf
    rw [if_pos]
    · exact h.head
    · have := h.kind
      simp only [List.mem_cons, List.not_mem_nil, or_false] at this
      rcases this with rfl | rfl | rfl <;> simp [hall]

theorem numeric_type? :
    (if Func.allOf .float types || Func.allOf .int types then types.head? else none) = some ty ↔
      Uniform [.float, .int] types ty := by
  constructor
  · intro h
    split at h
    · rename_i hall
      simp only [Bool.or_eq_true] at hall
      rcases hall with hall | hall <;> exact uniform_of_allOf hall (by simp) h
    · simp at h
  · intro h
    have hall := h.allOf
    rw [if_pos]
    · exact h.head
    · have := h.kind
      simp only [List.mem_cons, List.not_mem_nil, or_false] at this
      rcases this with rfl | rfl <;> simp [hall]

theorem type?_min : min.type? types = some ty ↔ Uniform [.float, .int] types ty := numeric_type?

theorem type?_max : max.type? types = some ty ↔ Uniform [.float, .int] types ty := numeric_type?

/-- A product is one of numbers, or scales a vector. -/
theorem type?_mul :
    mul.type? types = some ty ↔ Uniform [.float, .int] types ty ∨ (ty = .vec2 ∧ Scaled types) := by
  have hscaled : (types.count .vec2 == 1 && types.all fun t => t == .float || t == .vec2) = true ↔
      Scaled types := by
    simp only [Bool.and_eq_true, beq_iff_eq, List.all_eq_true, Bool.or_eq_true]
    exact ⟨fun h => ⟨h.1, h.2⟩, fun h => ⟨h.count, h.all⟩⟩
  simp only [type?]
  by_cases hnum : (Func.allOf .float types || Func.allOf .int types) = true
  · -- A list of numbers of one kind holds no vector.
    have hnot : ¬ Scaled types := by
      intro h
      have hmem : ValueType.vec2 ∈ types := List.count_pos_iff.1 (by simp [h.count])
      simp only [Bool.or_eq_true, allOf_iff] at hnum
      rcases hnum with hnum | hnum <;> simpa using hnum _ hmem
    rw [← numeric_type?, if_pos hnum, if_pos hnum]
    simp [hnot]
  · rw [if_neg hnum, ← numeric_type?, if_neg hnum]
    by_cases h : Scaled types
    · rw [if_pos (hscaled.2 h), Option.some_inj]
      constructor
      · exact fun hty => .inr ⟨hty.symm, h⟩
      · exact fun hty => hty.elim (fun hno => nomatch hno) fun hty => hty.1.symm
    · rw [if_neg fun hs => h (hscaled.1 hs)]
      simp [h]

theorem type?_and :
    and.type? types = some ty ↔ ty = .bool ∧ ∀ t ∈ types, t = .bool := by
  simp only [type?]
  rw [Option.ite_none_right_eq_some, allOf_iff, Option.some_inj]
  exact ⟨fun h => ⟨h.2.symm, h.1⟩, fun h => ⟨h.2, h.1.symm⟩⟩

theorem type?_or : or.type? types = some ty ↔ ty = .bool ∧ ∀ t ∈ types, t = .bool := type?_and

/-- Operands of one type are joined by a step that stays within the type. -/
theorem joinWith_yields {step : Value → Value → Except EvalError Value} {first : Value}
    {rest : List Value}
    (hstep : ∀ v w : Value, v.type = ty → w.type = ty → Yields ty (step v w))
    (hfirst : first.type = ty) (hrest : ∀ v ∈ rest, v.type = ty) :
    Yields ty (joinWith step first rest) := by
  induction rest generalizing first with
  | nil => exact hfirst
  | cons v rest ih =>
    rw [joinWith, List.foldlM_cons]
    refine (hstep first v hfirst (hrest v (by simp))).bind fun w hw => ?_
    exact ih hw fun u hu => hrest u (by simp [hu])

/-- A product with one vector among numbers is a vector, wherever the vector stands. -/
theorem joinWith_times_yields {first : Value} {rest : List Value}
    (h : ∀ v ∈ first :: rest, v.type = .float ∨ v.type = .vec2)
    (hcount : ((first :: rest).map Value.type).count .vec2 = 1) :
    Yields .vec2 (joinWith Value.times first rest) := by
  induction rest generalizing first with
  | nil =>
    rcases h first (by simp) with hf | hf
    · simp [hf] at hcount
    · exact hf
  | cons v rest ih =>
    have hsplit : [first.type, v.type].count .vec2 + (rest.map Value.type).count .vec2 = 1 := by
      rw [← List.count_append]
      simpa using hcount
    rw [joinWith, List.foldlM_cons]
    have hstep := Value.times_scaled (h first (by simp)) (h v (by simp)) (by omega)
    refine hstep.bind fun w hw => ih ?_ ?_
    · intro u hu
      rcases List.mem_cons.1 hu with rfl | hu
      · exact hw.1
      · exact h u (by simp [hu])
    · rw [List.map_cons, ← List.singleton_append, List.count_append, hw.2, hsplit]

theorem decideBy_satisfies {short acc : Bool} {rest : List Value}
    (h : ∀ v ∈ rest, v.type = .bool) : (decideBy short acc rest).Satisfies fun _ => True := by
  induction rest generalizing acc with
  | nil => exact trivial
  | cons v rest ih =>
    rw [decideBy]
    split
    · exact trivial
    · exact (Value.toBool_satisfies (h v (by simp))).bind fun b _ => ih fun u hu => h u (by simp [hu])

/-- A function on arguments of types it is defined for. -/
theorem apply_yields {func : Func} (h : func.type (args.map Value.type) = .ok result) :
    Yields result (func.apply args) := by
  obtain ⟨htakes, htype⟩ := type_eq_ok_iff.1 h
  match args with
  | [] => cases func <;> simp [takes, arity?] at htakes
  | first :: rest =>
    -- What the table says of the types, said of the first operand and of the others.
    have uniform {kinds : List ValueType}
        (hu : Uniform kinds ((first :: rest).map Value.type) result) :
        result ∈ kinds ∧ first.type = result ∧ ∀ v ∈ rest, v.type = result :=
      ⟨hu.kind, hu.all _ (by simp), fun v hv => hu.all _ (by simpa using .inr ⟨v, hv, rfl⟩)⟩
    cases func with
    | add =>
      obtain ⟨hkind, hfirst, hrest⟩ := uniform (type?_add.1 htype)
      exact joinWith_yields (fun v w => Value.plus_yields (by simpa using hkind)) hfirst hrest
    | mul =>
      rcases type?_mul.1 htype with hu | ⟨rfl, hs⟩
      · obtain ⟨hkind, hfirst, hrest⟩ := uniform hu
        exact joinWith_yields (fun v w => Value.times_yields (by simpa using hkind)) hfirst hrest
      · exact joinWith_times_yields (fun v hv => hs.all _ (List.mem_map_of_mem hv)) hs.count
    | min =>
      obtain ⟨hkind, hfirst, hrest⟩ := uniform (type?_min.1 htype)
      exact joinWith_yields (fun v w => Value.least_yields (by simpa using hkind)) hfirst hrest
    | max =>
      obtain ⟨hkind, hfirst, hrest⟩ := uniform (type?_max.1 htype)
      exact joinWith_yields (fun v w => Value.greatest_yields (by simpa using hkind)) hfirst hrest
    | and =>
      obtain ⟨rfl, hall⟩ := type?_and.1 htype
      refine (Value.toBool_satisfies (hall _ (by simp))).bind fun b _ => ?_
      refine (decideBy_satisfies fun v hv => ?_).bind fun b _ => rfl
      exact hall _ (by simpa using .inr ⟨v, hv, rfl⟩)
    | or =>
      obtain ⟨rfl, hall⟩ := type?_or.1 htype
      refine (Value.toBool_satisfies (hall _ (by simp))).bind fun b _ => ?_
      refine (decideBy_satisfies fun v hv => ?_).bind fun b _ => rfl
      exact hall _ (by simpa using .inr ⟨v, hv, rfl⟩)
    | abs =>
      obtain ⟨hkind, hfirst, -⟩ := uniform (numeric_type?.1 htype)
      rw [← hfirst] at hkind ⊢
      exact Value.absolute_yields (by simpa using hkind)
    | toFloat =>
      obtain ⟨hall, ⟨⟩⟩ := Option.ite_none_right_eq_some.1 htype
      exact Value.ofWhole_yields (allOf_iff.1 hall _ (by simp))
    | sin | cos | sqrt | floor =>
      obtain ⟨hall, ⟨⟩⟩ := Option.ite_none_right_eq_some.1 htype
      obtain ⟨x, rfl⟩ := Value.exists_float (allOf_iff.1 hall first.type (by simp))
      rfl
    | vec2 =>
      obtain ⟨hall, ⟨⟩⟩ := Option.ite_none_right_eq_some.1 htype
      obtain ⟨y, rfl⟩ := List.length_eq_one_iff.1 (by simpa [takes, arity?] using htakes)
      simp only [List.map_cons, List.map_nil, allOf_iff, List.forall_mem_cons] at hall
      obtain ⟨x, rfl⟩ := Value.exists_float hall.1
      obtain ⟨y, rfl⟩ := Value.exists_float hall.2.1
      rfl
    | lerp | clamp =>
      obtain ⟨hall, ⟨⟩⟩ := Option.ite_none_right_eq_some.1 htype
      obtain ⟨y, z, rfl⟩ := List.length_eq_two.1 (by simpa [takes, arity?] using htakes)
      simp only [List.map_cons, List.map_nil, allOf_iff, List.forall_mem_cons] at hall
      obtain ⟨x, rfl⟩ := Value.exists_float hall.1
      obtain ⟨y, rfl⟩ := Value.exists_float hall.2.1
      obtain ⟨z, rfl⟩ := Value.exists_float hall.2.2.1
      rfl

end Func

end Barrage
