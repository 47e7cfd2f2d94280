import Barrage.Proofs.Chunk.Phrases
import Barrage.Proofs.Expr.Hoisting

/-!
# Types of linear forms

The bindings of a linear form are read from front to back: each of them has a type in the scope that
those before it make, its condition is a truth value there, and the result has the type of the tree.
None of these parts binds names or holds objects, so all of them can be printed.

A condition is named only if some binding behind it needs it. Where it is not named, nothing is lifted
out of the parts behind it, so that they are still the parts of the tree and need no new names.

## Main definitions

* `Expr.Straight` — expressions with a type, without bindings and objects
* `Binding.Straight` — bindings that can be read in a scope, and the scope after them
* `Expr.Reaches` — the scope after bindings, in which names are still free

## Main results

* `Expr.inferIn_mono` — larger scopes do no harm
* `Expr.straight_lift` — what lifting makes of a tree can be read
-/

namespace Barrage

open Barrage.Expr

namespace Expr

variable {scope scope' scope'' : Scope} {ty : ValueType} {args : List Expr}

/-- In a larger scope a tree has the same type. -/
theorem inferIn_mono {e : Expr} (hle : Names.Le scope scope') (h : inferIn scope e = .ok ty) :
    inferIn scope' e = .ok ty := by
  induction e using treeInduction generalizing scope scope' ty with
  | const value => exact h
  | var name => exact inferIn_var.2 (hle name ty (inferIn_var.1 h))
  | member inner field ih =>
    obtain ⟨t, hinner, hfield⟩ := inferIn_member.1 h
    exact inferIn_member.2 ⟨t, ih hle hinner, hfield⟩
  | unary op inner ih =>
    obtain ⟨t, hinner, hop⟩ := inferIn_unary.1 h
    exact inferIn_unary.2 ⟨t, ih hle hinner, hop⟩
  | binary op left right ihl ihr =>
    obtain ⟨l, r, hl, hr, hop⟩ := inferIn_binary.1 h
    exact inferIn_binary.2 ⟨l, r, ihl hle hl, ihr hle hr, hop⟩
  | branch cond yes no ihc ihy ihn =>
    obtain ⟨hc, hy, hn⟩ := inferIn_branch.1 h
    exact inferIn_branch.2 ⟨ihc hle hc, ihy hle hy, ihn hle hn⟩
  | bind name value body ihv ihb =>
    obtain ⟨t, hv, hb⟩ := inferIn_bind.1 h
    exact inferIn_bind.2 ⟨t, ihv hle hv, ihb (hle.cons name t) hb⟩
  | call func args ih =>
    obtain ⟨tys, hargs, htype⟩ := inferIn_call.1 h
    exact inferIn_call.2 ⟨tys, hargs.imp_of_mem fun e t he hety => ih e he hle hety, htype⟩

/-- No function takes no arguments. -/
theorem ne_nil_of_type {func : Func} (h : func.type [] = .ok ty) : False := by
  cases func <;> cases h

theorem args_ne_nil {func : Func} (h : inferIn scope (call func args) = .ok ty) : args ≠ [] := by
  rintro rfl
  obtain ⟨tys, hargs, htype⟩ := inferIn_call.1 h
  cases hargs
  exact ne_nil_of_type htype

/-- A well-typed tree without bindings and objects can be printed. -/
theorem printable_of_lets {e : Expr} (h : inferIn scope e = .ok ty) (hlets : e.lets = 0)
    (hobjects : e.objects = []) : e.Printable := by
  induction e using treeInduction generalizing scope ty with
  | const value =>
    cases value with
    | timer handle => cases hobjects
    | entity handle => cases hobjects
    | _ => exact .const (fun h => by cases h) fun h => by cases h
  | var name => exact .var name
  | member inner field ih =>
    obtain ⟨t, hinner, -⟩ := inferIn_member.1 h
    exact .member field (ih hinner hlets hobjects)
  | unary op inner ih =>
    obtain ⟨t, hinner, -⟩ := inferIn_unary.1 h
    exact .unary op (ih hinner hlets hobjects)
  | binary op left right ihl ihr =>
    obtain ⟨l, r, hl, hr, -⟩ := inferIn_binary.1 h
    obtain ⟨hol, hor⟩ := List.append_eq_nil_iff.1 hobjects
    rw [lets] at hlets
    exact .binary op (ihl hl (by omega) hol) (ihr hr (by omega) hor)
  | branch cond yes no ihc ihy ihn =>
    obtain ⟨hc, hy, hn⟩ := inferIn_branch.1 h
    obtain ⟨hocy, hon⟩ := List.append_eq_nil_iff.1 hobjects
    obtain ⟨hoc, hoy⟩ := List.append_eq_nil_iff.1 hocy
    rw [lets] at hlets
    exact .branch (ihc hc (by omega) hoc) (ihy hy (by omega) hoy) (ihn hn (by omega) hon)
  | bind name value body =>
    rw [lets] at hlets
    omega
  | call func args ih =>
    obtain ⟨tys, hargs, -⟩ := inferIn_call.1 h
    refine .call func (args_ne_nil h) ?_
    change letsList args = 0 at hlets
    change objectsList args = [] at hobjects
    clear h
    induction hargs with
    | nil => exact List.forall_mem_nil _
    | @cons e t es tys he _ ihes =>
      obtain ⟨hoe, hoes⟩ := List.append_eq_nil_iff.1 hobjects
      rw [letsList] at hlets
      refine List.forall_mem_cons.2 ⟨ih e (by simp) he (by omega) hoe, ?_⟩
      exact ihes (fun e he => ih e (by simp [he])) (by omega) hoes

theorem lets_eq_zero_of_mem (h : letsList args = 0) {e : Expr} (he : e ∈ args) : e.lets = 0 := by
  induction args with
  | nil => cases he
  | cons first rest ih =>
    rw [letsList] at h
    rcases List.mem_cons.1 he with rfl | hrest
    · omega
    · exact ih (by omega) hrest

theorem objects_eq_nil_of_mem (h : objectsList args = []) {e : Expr} (he : e ∈ args) :
    e.objects = [] := by
  rw [objectsList_eq_flatMap, List.flatMap_eq_nil_iff] at h
  exact h e he

/-! ### Parts of linear forms -/

/-- Expressions with a type in a scope that can be printed. -/
structure Straight (scope : Scope) (e : Expr) (ty : ValueType) : Prop where
  typed : inferIn scope e = .ok ty
  printable : e.Printable

theorem Straight.mono {e : Expr} (h : Straight scope e ty) (hle : Names.Le scope scope') :
    Straight scope' e ty :=
  ⟨inferIn_mono hle h.typed, h.printable⟩

theorem straight_call {func : Func} {tys : List ValueType}
    (hargs : List.Forall₂ (Straight scope) args tys) (htype : func.type tys = .ok ty) :
    Straight scope (call func args) ty := by
  have htyped : inferIn scope (call func args) = .ok ty :=
    inferIn_call.2 ⟨tys, hargs.imp fun _ _ h => h.typed, htype⟩
  refine ⟨htyped, .call func (args_ne_nil htyped) fun e he => ?_⟩
  obtain ⟨t, -, h⟩ := hargs.exists_of_mem_left he
  exact h.printable

/-- The conjunction of conditions is a condition. -/
theorem straight_conjunction {guard : List Expr} {cond : Expr}
    (h : ∀ g ∈ guard, Straight scope g .bool) (hcond : conjunction guard = some cond) :
    Straight scope cond .bool := by
  match guard, hcond with
  | [_], rfl => exact h cond (by simp)
  | first :: second :: more, rfl =>
    have hargs : List.Forall₂ (Straight scope) (first :: second :: more)
        ((first :: second :: more).map fun _ => ValueType.bool) :=
      List.forall₂_map_right_iff.2 (List.forall₂_same.2 h)
    refine straight_call hargs (Func.type_eq_ok_iff.2 ⟨by simp [Func.takes, Func.arity?], ?_⟩)
    exact Func.type?_and.2 ⟨rfl, by simp⟩

theorem straight_negation {test : Expr} (h : Straight scope test .bool) :
    Straight scope (negation test) .bool :=
  ⟨inferIn_unary.2 ⟨.bool, h.typed, rfl⟩, .unary .not h.printable⟩

end Expr

/-- Bindings that can be read one after the other, each in the scope of those before it, and the scope
after them. -/
inductive Binding.Straight : Scope → List Binding → Scope → Prop
  | nil (scope : Scope) : Straight scope [] scope
  | cons {scope scope' : Scope} {b : Binding} {bs : List Binding} {ty : ValueType}
    (guard : ∀ cond, b.guard = some cond → Expr.Straight scope cond .bool)
    (value : Expr.Straight scope b.value ty) (rest : Straight ((b.name, ty) :: scope) bs scope') :
    Straight scope (b :: bs) scope'

theorem Binding.Straight.append {scope scope' scope'' : Scope} {bs cs : List Binding}
    (h : Binding.Straight scope bs scope') (h' : Binding.Straight scope' cs scope'') :
    Binding.Straight scope (bs ++ cs) scope'' := by
  induction h with
  | nil scope => exact h'
  | cons guard value _ ih => exact .cons guard value (ih h')

namespace Expr

variable {scope scope' scope'' : Scope} {ty : ValueType} {args guard : List Expr} {value : Expr}
  {bs cs : List Binding} {lets lets' guards guards' : Nat} {P : String → Prop}

/-- The scope after some bindings holds what the scope before them does, and the made names from `lets`
and `guards` on are free in it. The names of the bindings are fit for some purpose. -/
structure Reaches (P : String → Prop) (scope : Scope) (bs : List Binding) (lets guards : Nat)
    (scope' : Scope) : Prop where
  straight : Binding.Straight scope bs scope'
  names : ∀ b ∈ bs, P b.name
  le : Names.Le scope scope'
  fresh : FreshFrom scope' lets guards

theorem reaches_nil (h : FreshFrom scope lets guards) : Reaches P scope [] lets guards scope :=
  ⟨.nil scope, fun _ hb => (nomatch hb), .refl scope, h⟩

theorem Reaches.append (h : Reaches P scope bs lets guards scope')
    (h' : Reaches P scope' cs lets' guards' scope'') : Reaches P scope (bs ++ cs) lets' guards' scope'' :=
  ⟨h.straight.append h'.straight, List.forall_mem_append.2 ⟨h.names, h'.names⟩, h.le.trans h'.le,
    h'.fresh⟩

theorem Reaches.mono (h : Reaches P scope bs lets guards scope') (hl : lets ≤ lets')
    (hg : guards ≤ guards') : Reaches P scope bs lets' guards' scope' :=
  ⟨h.straight, h.names, h.le, h.fresh.mono hl hg⟩

theorem reaches_guarded {name : String} (hguard : ∀ g ∈ guard, Straight scope g .bool)
    (hvalue : Straight scope value ty) (hP : P name) (hname : scope.lookup name = none)
    (hfresh : FreshFrom ((name, ty) :: scope) lets guards) :
    Reaches P scope [guarded guard name value] lets guards ((name, ty) :: scope) where
  straight := .cons (fun _ hcond => straight_conjunction hguard hcond) hvalue (.nil _)
  names := List.forall_mem_singleton.2 hP
  le := .cons_of_lookup_eq_none hname ty
  fresh := hfresh

/-- The binding that names a condition, and the form in which it is repeated. -/
theorem reaches_naming (hP : ∀ n, P (guardName n)) (hguard : ∀ g ∈ guard, Straight scope g .bool)
    (hvalue : Straight scope value .bool) (hfresh : FreshFrom scope lets guards) :
    ∃ scope', Reaches P scope (naming guard value (atom value guards).2.1) lets (atom value guards).2.2
        scope' ∧ Straight scope' (atom value guards).1 .bool := by
  have hself : ∃ scope', Reaches P scope (naming guard value none) lets guards scope' ∧
      Straight scope' value .bool := ⟨scope, reaches_nil hfresh, hvalue⟩
  have hnamed : ∃ scope', Reaches P scope (naming guard value (some (guardName guards))) lets
      (guards + 1) scope' ∧ Straight scope' (var (guardName guards)) .bool := by
    refine ⟨(guardName guards, .bool) :: scope, ?_, ?_⟩
    · exact reaches_guarded hguard hvalue (hP guards) (hfresh.guardName (Nat.le_refl _))
        (hfresh.cons_guardName _)
    · exact ⟨inferIn_var.2 List.lookup_cons_self, .var _⟩
  cases value with
  | const | var => exact hself
  | _ => exact hnamed

/-! ### Lifting -/

/-- What lifting makes of a tree can be read: its bindings one after the other, and the rest of the tree
after them, with the type of the tree. -/
def LiftsStraight (P : String → Prop) (e : Expr) : Prop :=
  ∀ {scope : Scope} {ty : ValueType} {guard : List Expr} {lets guards : Nat},
    inferIn scope e = .ok ty → e.objects = [] → (∀ x ∈ e.boundNames, P x) → e.Numbered lets →
    FreshFrom scope lets guards → (∀ g ∈ guard, Straight scope g .bool) →
    ∃ scope', Reaches P scope (lift guard e guards).2.1 (lets + e.lets) (lift guard e guards).2.2 scope' ∧
      Straight scope' (lift guard e guards).1 ty

theorem straight_liftList {tys : List ValueType} (ih : ∀ e ∈ args, LiftsStraight P e)
    (hargs : List.Forall₂ (fun e ty => inferIn scope e = .ok ty) args tys)
    (hobjects : objectsList args = []) (hnames : ∀ x ∈ boundNamesList args, P x)
    (hnum : NumberedList lets args) (hfresh : FreshFrom scope lets guards)
    (hguard : ∀ g ∈ guard, Straight scope g .bool) :
    ∃ scope', Reaches P scope (liftList guard args guards).2.1 (lets + letsList args)
        (liftList guard args guards).2.2 scope' ∧
      List.Forall₂ (Straight scope') (liftList guard args guards).1 tys := by
  induction args generalizing scope tys lets guards with
  | nil =>
    cases hargs
    exact ⟨scope, reaches_nil hfresh, .nil⟩
  | cons e es ihes =>
    cases hargs with
    | @cons _ t _ tys he hes =>
      rw [List.forall_mem_cons] at ih
      obtain ⟨hoe, hoes⟩ := List.append_eq_nil_iff.1 hobjects
      obtain ⟨hne, hnes⟩ := List.forall_mem_append.1 hnames
      obtain ⟨scope₁, hreach₁, hstraight₁⟩ := ih.1 he hoe hne hnum.1 hfresh hguard
      have hes₁ : List.Forall₂ (fun e ty => inferIn scope₁ e = .ok ty) es tys :=
        hes.imp fun _ _ h => inferIn_mono hreach₁.le h
      obtain ⟨scope₂, hreach₂, hstraight₂⟩ := ihes ih.2 hes₁ hoes hnes hnum.2 hreach₁.fresh
        fun g hg => (hguard g hg).mono hreach₁.le
      rw [Nat.add_assoc] at hreach₂
      exact ⟨scope₂, hreach₁.append hreach₂, .cons (hstraight₁.mono hreach₂.le) hstraight₂⟩

/-- Operands of which the first may decide: an operand is named only if something is lifted out of those
behind it. -/
theorem straight_settle (short : Bool) (hP : ∀ n, P (guardName n)) (ih : ∀ e ∈ args, LiftsStraight P e)
    (hargs : ∀ e ∈ args, inferIn scope e = .ok .bool) (hobjects : objectsList args = [])
    (hnames : ∀ x ∈ boundNamesList args, P x) (hnum : NumberedList lets args) (hfresh : FreshFrom scope lets guards)
    (hguard : ∀ g ∈ guard, Straight scope g .bool) :
    ∃ scope', Reaches P scope (Operand.settle (liftOperands short guard args guards).1).1
        (lets + letsList args) (liftOperands short guard args guards).2 scope' ∧
      (∀ e ∈ (Operand.settle (liftOperands short guard args guards).1).2, Straight scope' e .bool) ∧
      (Operand.settle (liftOperands short guard args guards).1).2.length = args.length := by
  induction args generalizing scope guard lets guards with
  | nil => exact ⟨scope, reaches_nil hfresh, by simp [liftOperands, Operand.settle], rfl⟩
  | cons e es ihes =>
    rw [List.forall_mem_cons] at ih hargs
    obtain ⟨hoe, hoes⟩ := List.append_eq_nil_iff.1 hobjects
    obtain ⟨hne, hnes⟩ := List.forall_mem_append.1 hnames
    have hfirst := ih.1 hargs.1 hoe hne hnum.1 hfresh hguard
    obtain ⟨value, lifted, guards₁, hlift⟩ : ∃ a b c, lift guard e guards = (a, b, c) :=
      ⟨_, _, _, rfl⟩
    obtain ⟨test, name, guards₂, hatom⟩ : ∃ a b c, atom value guards₁ = (a, b, c) := ⟨_, _, _, rfl⟩
    obtain ⟨goesOn, hgoesOn⟩ : ∃ c, c = if short then negation test else test := ⟨_, rfl⟩
    obtain ⟨rest, guards₃, hoperands⟩ : ∃ a b,
        liftOperands short (guard ++ [goesOn]) es guards₂ = (a, b) := ⟨_, _, rfl⟩
    have hle₂ : guards₁ ≤ guards₂ := by simpa only [hatom] using le_atom value guards₁
    have hle₃ : guards₂ ≤ guards₃ := by
      simpa only [hoperands] using le_liftOperands
        (fun e (_ : e ∈ es) guard guards => le_lift guard e guards) short (guard ++ [goesOn]) guards₂
    rw [hlift] at hfirst
    obtain ⟨scope₁, hreach₁, hvalue⟩ := hfirst
    have hguard₁ : ∀ g ∈ guard, Straight scope₁ g .bool := fun g hg => (hguard g hg).mono hreach₁.le
    rw [letsList, ← Nat.add_assoc]
    simp only [liftOperands, hlift, hatom, ← hgoesOn, hoperands]
    by_cases hany : (rest.any fun later => !later.lifted.isEmpty) = true
    · rw [Operand.settle_cons_of_any hany]
      have hnaming := reaches_naming hP hguard₁ hvalue hreach₁.fresh
      rw [hatom] at hnaming
      obtain ⟨scope₂, hreach₂, htest⟩ := hnaming
      have hguard₂ : ∀ g ∈ guard ++ [goesOn], Straight scope₂ g .bool := by
        refine List.forall_mem_append.2 ⟨fun g hg => (hguard₁ g hg).mono hreach₂.le, ?_⟩
        rw [List.forall_mem_singleton, hgoesOn]
        split
        · exact straight_negation htest
        · exact htest
      have hes₂ : ∀ e ∈ es, inferIn scope₂ e = .ok .bool := fun e he =>
        inferIn_mono (hreach₁.le.trans hreach₂.le) (hargs.2 e he)
      have hrest := ihes ih.2 hes₂ hoes hnes hnum.2 hreach₂.fresh hguard₂
      rw [hoperands] at hrest
      obtain ⟨scope₃, hreach₃, hstraight, hlength⟩ := hrest
      refine ⟨scope₃, (hreach₁.append hreach₂).append hreach₃, ?_, by simpa using hlength⟩
      exact List.forall_mem_cons.2 ⟨htest.mono hreach₃.le, hstraight⟩
    · have hnil : ∀ o ∈ rest, o.lifted = [] := by
        intro o ho
        simp only [List.any_eq_true, not_exists, not_and] at hany
        simpa using hany o ho
      have hself := liftOperands_of_forall_eq_nil short (guard ++ [goesOn]) guards₂
        (fun e (_ : e ∈ es) _ _ h => lift_of_eq_nil h) (by rwa [hoperands])
      rw [hoperands] at hself
      rw [Operand.settle_cons_of_forall_eq_nil hnil, hself.1]
      refine ⟨scope₁, hreach₁.mono (by omega) (Nat.le_trans hle₂ hle₃), ?_, rfl⟩
      refine List.forall_mem_cons.2 ⟨hvalue, fun e he => ?_⟩
      have htyped := inferIn_mono hreach₁.le (hargs.2 e he)
      exact ⟨htyped, printable_of_lets htyped (lets_eq_zero_of_mem hself.2 he)
        (objects_eq_nil_of_mem hoes he)⟩

theorem straight_branch {cond yes no : Expr} (hP : ∀ n, P (guardName n)) (ihc : LiftsStraight P cond)
    (ihy : LiftsStraight P yes) (ihn : LiftsStraight P no) : LiftsStraight P (branch cond yes no) := by
  intro scope ty guard lets guards htyped hobjects hnames hnum hfresh hguard
  obtain ⟨hc, hy, hn⟩ := inferIn_branch.1 htyped
  obtain ⟨hocy, hon⟩ := List.append_eq_nil_iff.1 hobjects
  obtain ⟨hoc, hoy⟩ := List.append_eq_nil_iff.1 hocy
  obtain ⟨hbcy, hbn⟩ := List.forall_mem_append.1 hnames
  obtain ⟨hbc, hby⟩ := List.forall_mem_append.1 hbcy
  obtain ⟨hnc, hny, hnn⟩ := hnum
  have hfirst := ihc hc hoc hbc hnc hfresh hguard
  obtain ⟨cond', before, guards₁, hlift⟩ : ∃ a b c, lift guard cond guards = (a, b, c) :=
    ⟨_, _, _, rfl⟩
  obtain ⟨test, name, guards₂, hatom⟩ : ∃ a b c, atom cond' guards₁ = (a, b, c) := ⟨_, _, _, rfl⟩
  obtain ⟨yes', ifTrue, guards₃, hyes⟩ : ∃ a b c, lift (guard ++ [test]) yes guards₂ = (a, b, c) :=
    ⟨_, _, _, rfl⟩
  obtain ⟨no', ifFalse, guards₄, hno⟩ : ∃ a b c,
      lift (guard ++ [negation test]) no guards₃ = (a, b, c) := ⟨_, _, _, rfl⟩
  have hle₂ : guards₁ ≤ guards₂ := by simpa only [hatom] using le_atom cond' guards₁
  have hle₃ : guards₂ ≤ guards₃ := by simpa only [hyes] using le_lift (guard ++ [test]) yes guards₂
  have hle₄ : guards₃ ≤ guards₄ := by
    simpa only [hno] using le_lift (guard ++ [negation test]) no guards₃
  rw [hlift] at hfirst
  obtain ⟨scope₁, hreach₁, hcond⟩ := hfirst
  have hguard₁ : ∀ g ∈ guard, Straight scope₁ g .bool := fun g hg => (hguard g hg).mono hreach₁.le
  rw [Expr.lets, ← Nat.add_assoc, ← Nat.add_assoc]
  simp only [lift, hlift, hatom, hyes, hno]
  split
  · rename_i hempty
    rw [Bool.and_eq_true, List.isEmpty_iff, List.isEmpty_iff] at hempty
    have hyes' := @lift_of_eq_nil yes (guard ++ [test]) guards₂
    have hno' := @lift_of_eq_nil no (guard ++ [negation test]) guards₃
    rw [hyes] at hyes'
    rw [hno] at hno'
    obtain ⟨rfl, hylets⟩ := hyes' hempty.1
    obtain ⟨rfl, hnlets⟩ := hno' hempty.2
    have hytyped := inferIn_mono hreach₁.le hy
    have hntyped := inferIn_mono hreach₁.le hn
    refine ⟨scope₁, hreach₁.mono (by omega) (Nat.le_trans hle₂ (Nat.le_trans hle₃ hle₄)), ?_⟩
    exact ⟨inferIn_branch.2 ⟨hcond.typed, hytyped, hntyped⟩, .branch hcond.printable
      (printable_of_lets hytyped hylets hoy) (printable_of_lets hntyped hnlets hon)⟩
  · have hnaming := reaches_naming hP hguard₁ hcond hreach₁.fresh
    rw [hatom] at hnaming
    obtain ⟨scope₂, hreach₂, htest⟩ := hnaming
    have hle₁₂ := hreach₁.le.trans hreach₂.le
    have hguard₂ : ∀ g ∈ guard, Straight scope₂ g .bool := fun g hg => (hguard g hg).mono hle₁₂
    have hyes₂ := ihy (inferIn_mono hle₁₂ hy) hoy hby hny hreach₂.fresh
      (List.forall_mem_append.2 ⟨hguard₂, List.forall_mem_singleton.2 htest⟩)
    rw [hyes] at hyes₂
    obtain ⟨scope₃, hreach₃, hyes₃⟩ := hyes₂
    have htest₃ := htest.mono hreach₃.le
    have hguard₃ : ∀ g ∈ guard, Straight scope₃ g .bool := fun g hg => (hguard₂ g hg).mono hreach₃.le
    have hno₃ := ihn (inferIn_mono (hle₁₂.trans hreach₃.le) hn) hon hbn hnn hreach₃.fresh
      (List.forall_mem_append.2 ⟨hguard₃, List.forall_mem_singleton.2 (straight_negation htest₃)⟩)
    rw [hno] at hno₃
    obtain ⟨scope₄, hreach₄, hno₄⟩ := hno₃
    have htest₄ := htest₃.mono hreach₄.le
    have hyes₄ := hyes₃.mono hreach₄.le
    refine ⟨scope₄, ((hreach₁.append hreach₂).append hreach₃).append hreach₄, ?_⟩
    exact ⟨inferIn_branch.2 ⟨htest₄.typed, hyes₄.typed, hno₄.typed⟩,
      .branch htest₄.printable hyes₄.printable hno₄.printable⟩

/-- Functions that decide early are defined for truth values. -/
theorem bool_of_shortCircuit {func : Func} {short : Bool} {tys : List ValueType}
    (hshort : shortCircuit? func = some short) (htype : func.type tys = .ok ty) :
    ∀ t ∈ tys, t = .bool := by
  have htype? := (Func.type_eq_ok_iff.1 htype).2
  cases func with
  | and => exact (Func.type?_and.1 htype?).2
  | or => exact (Func.type?_or.1 htype?).2
  | _ => cases hshort

theorem forall₂_bool {tys : List ValueType} (hargs : ∀ e ∈ args, Straight scope e .bool)
    (htys : ∀ t ∈ tys, t = .bool) (hlength : args.length = tys.length) :
    List.Forall₂ (Straight scope) args tys := by
  induction args generalizing tys with
  | nil =>
    rw [List.length_eq_zero_iff.1 hlength.symm]
    exact .nil
  | cons e es ih =>
    cases tys with
    | nil => cases hlength
    | cons t tys =>
      rw [List.forall_mem_cons] at hargs htys
      rw [htys.1]
      exact .cons hargs.1 (ih hargs.2 htys.2 (Nat.succ.inj hlength))

/-- What lifting makes of a well-typed tree without objects can be read. -/
theorem straight_lift (hP : ∀ n, P (guardName n)) (e : Expr) : LiftsStraight P e := by
  induction e using treeInduction with
  | const value =>
    intro scope ty guard lets guards htyped hobjects hnames hnum hfresh hguard
    exact ⟨scope, reaches_nil hfresh, htyped, printable_of_lets htyped rfl hobjects⟩
  | var name =>
    intro scope ty guard lets guards htyped hobjects hnames hnum hfresh hguard
    exact ⟨scope, reaches_nil hfresh, htyped, .var name⟩
  | member inner field ih =>
    intro scope ty guard lets guards htyped hobjects hnames hnum hfresh hguard
    obtain ⟨t, hinner, hfield⟩ := inferIn_member.1 htyped
    obtain ⟨scope', hreach, hstraight⟩ := ih hinner hobjects hnames hnum hfresh hguard
    exact ⟨scope', hreach, inferIn_member.2 ⟨t, hstraight.typed, hfield⟩,
      .member field hstraight.printable⟩
  | unary op inner ih =>
    intro scope ty guard lets guards htyped hobjects hnames hnum hfresh hguard
    obtain ⟨t, hinner, hop⟩ := inferIn_unary.1 htyped
    obtain ⟨scope', hreach, hstraight⟩ := ih hinner hobjects hnames hnum hfresh hguard
    exact ⟨scope', hreach, inferIn_unary.2 ⟨t, hstraight.typed, hop⟩, .unary op hstraight.printable⟩
  | binary op left right ihl ihr =>
    intro scope ty guard lets guards htyped hobjects hnames hnum hfresh hguard
    obtain ⟨l, r, hl, hr, hop⟩ := inferIn_binary.1 htyped
    obtain ⟨hol, hor⟩ := List.append_eq_nil_iff.1 hobjects
    obtain ⟨hbl, hbr⟩ := List.forall_mem_append.1 hnames
    obtain ⟨scope₁, hreach₁, hleft⟩ := ihl hl hol hbl hnum.1 hfresh hguard
    obtain ⟨scope₂, hreach₂, hright⟩ := ihr (inferIn_mono hreach₁.le hr) hor hbr hnum.2 hreach₁.fresh
      fun g hg => (hguard g hg).mono hreach₁.le
    have hleft₂ := hleft.mono hreach₂.le
    rw [Expr.lets, ← Nat.add_assoc]
    exact ⟨scope₂, hreach₁.append hreach₂, inferIn_binary.2 ⟨l, r, hleft₂.typed, hright.typed, hop⟩,
      .binary op hleft₂.printable hright.printable⟩
  | bind name value body ihv ihb =>
    intro scope ty guard lets guards htyped hobjects hnames hnum hfresh hguard
    obtain ⟨t, hv, hb⟩ := inferIn_bind.1 htyped
    obtain ⟨hov, hob⟩ := List.append_eq_nil_iff.1 hobjects
    obtain ⟨hnv, ⟨source, rfl⟩, hnb⟩ := hnum
    obtain ⟨hname, hnames⟩ := List.forall_mem_cons.1 hnames
    obtain ⟨hbv, hbb⟩ := List.forall_mem_append.1 hnames
    obtain ⟨scope₁, hreach₁, hvalue⟩ := ihv hv hov hbv hnv hfresh hguard
    have hguard₁ : ∀ g ∈ guard, Straight scope₁ g .bool := fun g hg => (hguard g hg).mono hreach₁.le
    have hone := reaches_guarded hguard₁ hvalue hname (hreach₁.fresh.letName (Nat.le_refl _))
      (hreach₁.fresh.cons_letName source t)
    have htyped₁ := inferIn_mono (hreach₁.le.cons _ t) hb
    obtain ⟨scope₂, hreach₂, hbody⟩ := ihb htyped₁ hob hbb hnb hone.fresh
      fun g hg => (hguard₁ g hg).mono hone.le
    have hall := hreach₁.append (hone.append hreach₂)
    rw [Expr.lets]
    exact ⟨scope₂, hall.mono (by omega) (Nat.le_refl _), hbody⟩
  | branch cond yes no ihc ihy ihn => exact straight_branch hP ihc ihy ihn
  | call func args ih =>
    intro scope ty guard lets guards htyped hobjects hnames hnum hfresh hguard
    obtain ⟨tys, hargs, htype⟩ := inferIn_call.1 htyped
    unfold lift
    split
    · rename_i short hshort
      have hbool := bool_of_shortCircuit hshort htype
      have htyped : ∀ e ∈ args, inferIn scope e = .ok .bool := by
        intro e he
        obtain ⟨t, ht, hety⟩ := hargs.exists_of_mem_left he
        rw [hety, hbool t ht]
      obtain ⟨scope', hreach, hstraight, hlength⟩ := straight_settle short hP ih
        htyped hobjects hnames hnum hfresh hguard
      refine ⟨scope', hreach, straight_call ?_ htype⟩
      exact forall₂_bool hstraight hbool (hlength.trans hargs.length_eq)
    · obtain ⟨scope', hreach, hstraight⟩ := straight_liftList ih hargs hobjects
        hnames hnum hfresh hguard
      exact ⟨scope', hreach, straight_call hstraight htype⟩

/-! ### Linear forms -/

/-- Renaming keeps the objects of a tree. -/
theorem objects_rename (names : List (String × String)) (e : Expr) (count : Nat) :
    (rename names e count).1.objects = e.objects := by
  induction e using treeInduction generalizing names count with
  | const | var => rfl
  | member inner field ih => exact ih names count
  | unary op inner ih => exact ih names count
  | binary op left right ihl ihr => exact congrArg₂ (· ++ ·) (ihl names count) (ihr names _)
  | branch cond yes no ihc ihy ihn =>
    exact congrArg₂ (· ++ ·) (congrArg₂ (· ++ ·) (ihc names count) (ihy names _)) (ihn names _)
  | bind name value body ihv ihb => exact congrArg₂ (· ++ ·) (ihv names count) (ihb _ _)
  | call func args ih =>
    change objectsList (renameList names args count).1 = objectsList args
    induction args generalizing count with
    | nil => rfl
    | cons e es ihes =>
      exact congrArg₂ (· ++ ·) (ih e (by simp) names count) (ihes (fun e he => ih e (by simp [he])) _)

theorem plain_eq_self {α : Type} {names : List (String × α)}
    (h : ∀ b ∈ names, nameKind? b.1 = none) : plain names = names :=
  List.filter_eq_self.2 fun b hb => by rw [h b hb, Option.isNone_none]

/-- Renaming makes names out of those that a tree binds. -/
theorem boundNames_rename {Q : String → Prop} (hQ : ∀ x n, Q x → P (letName x n))
    (names : List (String × String)) {e : Expr} (h : ∀ x ∈ e.boundNames, Q x) (count : Nat) :
    ∀ x ∈ (rename names e count).1.boundNames, P x := by
  intro y hy
  obtain ⟨x, hx, n, rfl⟩ := (forall₂_boundNames_rename names e count).exists_of_mem_right hy
  exact hQ x n (h x hx)

/-- The bindings and the result of a linear form can be read. -/
theorem straight_linearize {Q : String → Prop} (hguard : ∀ n, P (guardName n))
    (hlet : ∀ x n, Q x → P (letName x n)) {e : Expr} (hnames : ∀ x ∈ e.boundNames, Q x) (hoisted : List Hoisted)
    (htyped : inferIn scope e = .ok ty) (hobjects : e.objects = []) (hvars : ∀ x ∈ e.vars, nameKind? x = none)
    (hscope : ∀ b ∈ scope, nameKind? b.1 = none) :
    ∃ scope', Binding.Straight scope (e.linearize hoisted).bindings scope' ∧
      Straight scope' (e.linearize hoisted).result ty ∧
        ∀ b ∈ (e.linearize hoisted).bindings, P b.name := by
  have hplain := plain_eq_self hscope
  have hrenames : Renames [] 0 scope scope := by
    have := renames_plain scope
    rwa [hplain] at this
  have hfresh : FreshFrom scope 0 0 := by
    have := freshFrom_plain scope
    rwa [hplain] at this
  have hrenamed := inferIn_rename htyped hvars hrenames (Nat.le_refl 0)
  have hobjects' : (rename [] e 0).1.objects = [] := by rw [objects_rename, hobjects]
  have hnothing : ∀ g ∈ ([] : List Expr), Straight scope g .bool := fun g hg => nomatch hg
  obtain ⟨scope', hreach, hresult⟩ := straight_lift hguard (rename [] e 0).1 hrenamed hobjects'
    (boundNames_rename hlet [] hnames 0) (numbered_rename [] e 0) hfresh hnothing
  exact ⟨scope', hreach.straight, hresult, hreach.names⟩

end Expr

end Barrage
