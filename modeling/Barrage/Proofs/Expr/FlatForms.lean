import Barrage.Proofs.Expr.Flattening
import Barrage.Proofs.Expr.Nesting

/-!
# Flat trees

Joining calls from the leaves up leaves nothing to join. When a call is reached, its arguments are flat, so an
argument that is joined into it brings in no argument that would have to be joined in turn. A tree in which
nothing is to be joined is its own flat form, and no other tree is.

Joining takes away inner nodes only. What stands at the leaves stays in its order, no path becomes longer, and
the arguments that take the place of a call have types that fit where that of the call did.

## Main definitions

* `Expr.Flat`: trees without a call that could be joined into the one around it
* `Expr.leaves`: the constants and variables of a tree, from left to right

## Main results

* `Expr.flat_flatten`, `Expr.flatten_eq_self_iff`: flat forms are flat, and flat trees are the trees that stay
* `Expr.flatten_normalizes`: the flat form is flat and final, and keeps leaves, depth and type
-/

namespace Barrage.Expr

/-- Trees in which no call of an associative function is an argument of a call of the same function. -/
inductive Flat : Expr → Prop
  | const {value : Value} : Flat (.const value)
  | var {name : String} : Flat (.var name)
  | member {inner : Expr} {field : Member} (h : Flat inner) : Flat (.member inner field)
  | unary {op : UnOp} {inner : Expr} (h : Flat inner) : Flat (.unary op inner)
  | binary {op : BinOp} {left right : Expr} (hleft : Flat left) (hright : Flat right) : Flat (.binary op left right)
  | call {func : Func} {args : List Expr} (hargs : ∀ e ∈ args, Flat e)
    (hapart : func.isAssociative → ∀ e ∈ args, ∀ inner, e ≠ .call func inner) : Flat (.call func args)
  | branch {cond yes no : Expr} (hcond : Flat cond) (hyes : Flat yes) (hno : Flat no) : Flat (.branch cond yes no)
  | bind {name : String} {value body : Expr} (hvalue : Flat value) (hbody : Flat body) : Flat (.bind name value body)

mutual

/-- The constants and variables of a tree, from left to right. -/
def leaves : Expr → List (Value ⊕ String)
  | const value => [.inl value]
  | var name => [.inr name]
  | member inner _ | unary _ inner => inner.leaves
  | binary _ left right => left.leaves ++ right.leaves
  | call _ args => leavesList args
  | branch cond yes no => cond.leaves ++ yes.leaves ++ no.leaves
  | bind _ value body => value.leaves ++ body.leaves

/-- The constants and variables in a list of trees. -/
def leavesList : List Expr → List (Value ⊕ String)
  | [] => []
  | e :: es => e.leaves ++ leavesList es

end

variable {func : Func} {e arg : Expr} {args : List Expr}

/-! ### Arguments of flat calls -/

theorem mem_flattenArgs : arg ∈ flattenArgs func args ↔ ∃ e ∈ args, arg ∈ splice func e.flatten := by
  induction args with
  | nil => simp [flattenArgs]
  | cons e es ih => rw [flattenArgs, List.mem_append, ih, List.exists_mem_cons_iff]

/-- A contributed argument is the whole argument, or one of its own if it is a call that is joined. -/
theorem splice_cases (h : arg ∈ splice func e) :
    (arg = e ∧ (func.isAssociative → ∀ inner, e ≠ .call func inner)) ∨
      ∃ inner, e = .call func inner ∧ func.isAssociative ∧ arg ∈ inner := by
  cases e with
  | call inner args =>
    rw [splice] at h
    split at h
    · rename_i hjoined
      obtain ⟨rfl, hassoc⟩ := hjoined
      exact .inr ⟨args, rfl, hassoc, h⟩
    · rename_i hapart
      refine .inl ⟨List.mem_singleton.1 h, fun hassoc inner' heq => hapart ?_⟩
      cases heq
      exact ⟨rfl, hassoc⟩
  | _ =>
    refine .inl ⟨List.mem_singleton.1 h, fun _ inner heq => ?_⟩
    cases heq

/-- What a flat tree contributes to a call is flat, and is not to be joined any further. -/
theorem Flat.of_mem_splice (h : e.Flat) (harg : arg ∈ splice func e) :
    arg.Flat ∧ (func.isAssociative → ∀ inner, arg ≠ .call func inner) := by
  rcases splice_cases harg with ⟨rfl, hapart⟩ | ⟨inner, rfl, hassoc, hinner⟩
  · exact ⟨h, hapart⟩
  · cases h with
    | call hargs hapart => exact ⟨hargs arg hinner, fun _ => hapart hassoc arg hinner⟩

theorem depth_le_of_mem_splice (h : arg ∈ splice func e) : arg.depth ≤ e.depth := by
  rcases splice_cases h with ⟨rfl, -⟩ | ⟨inner, rfl, -, hinner⟩
  · exact Nat.le_refl _
  · exact Nat.le_trans (depthList_le_iff.1 (Nat.le_refl _) arg hinner) (Nat.le_add_left _ 1)

/-! ### Flat forms -/

theorem flat_flatten (e : Expr) : e.flatten.Flat := by
  induction e using treeInduction with
  | const | var => constructor
  | member inner field ih => exact .member ih
  | unary op inner ih => exact .unary ih
  | binary op left right ihl ihr => exact .binary ihl ihr
  | branch cond yes no ihc ihy ihn => exact .branch ihc ihy ihn
  | bind name value body ihv ihb => exact .bind ihv ihb
  | call func args ih =>
    have hargs : ∀ arg ∈ flattenArgs func args,
        arg.Flat ∧ (func.isAssociative → ∀ inner, arg ≠ .call func inner) := fun arg harg => by
      obtain ⟨e, he, hsplice⟩ := mem_flattenArgs.1 harg
      exact (ih e he).of_mem_splice hsplice
    exact .call (fun arg harg => (hargs arg harg).1) fun hassoc arg harg => (hargs arg harg).2 hassoc

/-- A flat tree is its own flat form. -/
theorem Flat.flatten_eq (h : e.Flat) : e.flatten = e := by
  induction h with
  | const | var => rfl
  | member _ ih => exact congrArg (Expr.member · _) ih
  | unary _ ih => exact congrArg (Expr.unary _) ih
  | binary _ _ ihl ihr => exact congrArg₂ (Expr.binary _) ihl ihr
  | branch _ _ _ ihc ihy ihn => rw [flatten, ihc, ihy, ihn]
  | bind _ _ ihv ihb => exact congrArg₂ (Expr.bind _) ihv ihb
  | @call func args _ hapart ih =>
    have hsplice : ∀ e ∈ args, splice func e.flatten = [e.flatten] := fun e he => by
      by_cases hassoc : func.isAssociative
      · exact splice_flatten_of_ne (hapart hassoc e he)
      · exact splice_flatten_of_not_associative hassoc
    rw [flatten, flattenArgs_eq_map hsplice, List.map_congr_left ih, List.map_id'']
    exact fun _ => rfl

theorem flatten_eq_self_iff : e.flatten = e ↔ e.Flat :=
  ⟨fun h => h ▸ flat_flatten e, Flat.flatten_eq⟩

theorem leavesList_eq_flatMap (es : List Expr) : leavesList es = es.flatMap leaves := by
  induction es with
  | nil => rfl
  | cons e es ih => exact congrArg (e.leaves ++ ·) ih

theorem collects_leaves : Collects leaves fun _ => [] :=
  ⟨fun _ _ => rfl, fun _ _ => rfl, fun _ _ _ => rfl, fun _ args => leavesList_eq_flatMap args,
    fun _ _ _ => rfl, fun _ _ _ => rfl⟩

theorem depth_flatten_le (e : Expr) : e.flatten.depth ≤ e.depth := by
  induction e using treeInduction with
  | const | var => exact Nat.le_refl _
  | member inner field ih => exact Nat.add_le_add_left ih 1
  | unary op inner ih => exact Nat.add_le_add_left ih 1
  | binary op left right ihl ihr => exact Nat.add_le_add_left (max_le_max ihl ihr) 1
  | branch cond yes no ihc ihy ihn => exact Nat.add_le_add_left (max_le_max (max_le_max ihc ihy) ihn) 1
  | bind name value body ihv ihb => exact Nat.add_le_add_left (max_le_max ihv ihb) 1
  | call func args ih =>
    refine Nat.add_le_add_left (depthList_le_iff.2 fun arg harg => ?_) 1
    obtain ⟨e, he, hsplice⟩ := mem_flattenArgs.1 harg
    calc
      arg.depth ≤ e.flatten.depth := depth_le_of_mem_splice hsplice
      _ ≤ e.depth := ih e he
      _ ≤ depthList args := depthList_le_iff.1 (Nat.le_refl _) e he

/-- The flat form of a tree has no call that could be joined into the one around it and is its own flat form. It
has the constants and variables of the tree in their order, is no deeper, and has every type that the tree has. -/
theorem flatten_normalizes (e : Expr) :
    e.flatten.Flat ∧ e.flatten.flatten = e.flatten ∧ e.flatten.leaves = e.leaves ∧ e.flatten.depth ≤ e.depth ∧
      ∀ (params : List Param) (ty : ValueType), e.infer params = .ok ty → e.flatten.infer params = .ok ty :=
  ⟨flat_flatten e, (flat_flatten e).flatten_eq, collects_leaves.flatten e, depth_flatten_le e,
    fun _ _ h => inferIn_flatten h⟩

/-- A vector that is scaled within nested products. -/
theorem flatten_normalizes_scaled :
    let vector : Expr := .call .vec2 [.var "x", .const (.float 2.0)]
    let e : Expr := .call .mul [.var "x", .call .mul [.call .mul [vector, .var "x"], .var "x"]]
    let params : List Param := [⟨"x", .float⟩]
    e.infer params = .ok .vec2 ∧ e.flatten.infer params = .ok .vec2 ∧
      e.flatten = .call .mul [.var "x", vector, .var "x", .var "x"] := by
  intro vector e params
  have htyped : e.infer params = .ok .vec2 := by decide +kernel
  exact ⟨htyped, (flatten_normalizes e).2.2.2.2 params .vec2 htyped, rfl⟩

end Barrage.Expr
