import Barrage.Proofs.Chunk.UnitNames

/-!
# Units that can be read whatever their names are

Parameters and bindings may have names like those that units make. A variable may then stand for something else in
the unit than in the tree, and the unit need not be well typed. Its lines can be read all the same: reading asks for
the number of arguments of a call, for truth values where a condition stands, and for names that are names of the
serving language. All of this is kept by every step that makes a unit of a tree.

A name that is spelled like a word but is none ends the reading. What stands before it are the lines that do not
know of it, because a unit reads nothing before it is bound.

## Main definitions

* `MadeName` — names that lines of units can bind
* `Expr.Legible`, `Expr.LegibleBindings` — trees and lists of bindings that can be read, given the names in scope
* `Expr.LiftsLegible` — what lifting makes of legible trees

## Main results

* `Expr.legible_rename` — a well-typed tree stays legible with lookups for objects and new names for bindings
* `Expr.legible_rules`, `Expr.legible_linear` — lifting keeps trees legible, and so is what units are made of
* `Expr.printUnit_of_infer` — a well-typed tree is recorded as its lines
* `Expr.readsOn_unitLines` — they can be read up to the first name that is refused
-/

namespace Barrage

open Chunk

/-- Names that lines of units can bind: spelled like words, and the serving language leaves them free. -/
def MadeName (x : String) : Prop := Identifier x ∧ isFree x = true

/-- The operands of a conjunction or disjunction are truth values. -/
theorem Func.forall_eq_bool_of_type {func : Func} {tys : List ValueType} {ty : ValueType}
    (hlogical : func = .and ∨ func = .or) (h : func.type tys = .ok ty) : ∀ t ∈ tys, t = .bool := by
  rcases hlogical with rfl | rfl
  · exact (Func.type?_and.1 (Func.type_eq_ok_iff.1 h).2).2
  · exact (Func.type?_or.1 (Func.type_eq_ok_iff.1 h).2).2

namespace Expr

/-! ### Legible trees -/

/-- Whether a tree may give a truth value, as far as its literals tell. -/
def mayBeTruth : Expr → Bool
  | const (.bool _) => true
  | const _ => false
  | bind _ _ body => body.mayBeTruth
  | _ => true

/-- Names in scope together with some more. -/
def Scoped (S : String → Prop) (xs : List String) (x : String) : Prop := S x ∨ x ∈ xs

/-- Trees that can be printed so that they are read again, given the names in scope. -/
inductive Legible : (String → Prop) → Expr → Prop
  | const {S : String → Prop} (value : Value) : Legible S (const value)
  | var {S : String → Prop} {x : String} (h : S x) : Legible S (var x)
  | member {S : String → Prop} {inner : Expr} (field : Member) (hinner : Legible S inner) :
    Legible S (member inner field)
  | unary {S : String → Prop} {inner : Expr} (op : UnOp) (hinner : Legible S inner) : Legible S (unary op inner)
  | binary {S : String → Prop} {left right : Expr} (op : BinOp) (hleft : Legible S left) (hright : Legible S right) :
    Legible S (binary op left right)
  | call {S : String → Prop} {func : Func} {args : List Expr} (htakes : func.takes args.length = true)
    (htruth : func = .and ∨ func = .or → ∀ e ∈ args, e.mayBeTruth = true) (hargs : ∀ e ∈ args, Legible S e) :
    Legible S (call func args)
  | branch {S : String → Prop} {cond yes no : Expr} (htruth : cond.mayBeTruth = true) (hcond : Legible S cond)
    (hyes : Legible S yes) (hno : Legible S no) : Legible S (branch cond yes no)
  | bind {S : String → Prop} {x : String} {value body : Expr} (hname : MadeName x) (hvalue : Legible S value)
    (hbody : Legible (Scoped S [x]) body) : Legible S (bind x value body)

variable {S T : String → Prop} {e cond value : Expr} {guard args : List Expr} {xs ys : List String}

theorem Scoped.mono (hle : ∀ x, S x → T x) (hsub : ∀ x ∈ xs, x ∈ ys) (x : String) (h : Scoped S xs x) :
    Scoped T ys x :=
  h.imp (hle x) (hsub x)

theorem scoped_append (x : String) : Scoped S (xs ++ ys) x ↔ Scoped (Scoped S xs) ys x := by
  simp only [Scoped, List.mem_append, or_assoc]

theorem Legible.mono (h : Legible S e) (hle : ∀ x, S x → T x) : Legible T e := by
  induction h generalizing T with
  | const value => exact .const value
  | var h => exact .var (hle _ h)
  | member field _ ih => exact .member field (ih hle)
  | unary op _ ih => exact .unary op (ih hle)
  | binary op _ _ ihl ihr => exact .binary op (ihl hle) (ihr hle)
  | call htakes htruth _ ih => exact .call htakes htruth fun e he => ih e he hle
  | branch htruth _ _ _ ihc ihy ihn => exact .branch htruth (ihc hle) (ihy hle) (ihn hle)
  | bind hname _ _ ihv ihb => exact .bind hname (ihv hle) (ihb (Scoped.mono hle fun _ hx => hx))

/-! ### Names for objects and bindings -/

section Rename

variable {names : List (String × String)} {found : List Hoisted} {scope : Scope} {ty : ValueType} {n : Nat}

theorem length_renameList (names : List (String × String)) (args : List Expr) (n : Nat) :
    (renameList names args n).1.length = args.length := by
  induction args generalizing n with
  | nil => rfl
  | cons e es ih => exact congrArg Nat.succ (ih _)

theorem exists_of_mem_renameList {e' : Expr} (h : e' ∈ (renameList names args n).1) :
    ∃ e ∈ args, ∃ m, e' = (rename names e m).1 := by
  induction args generalizing n with
  | nil => cases h
  | cons e es ih =>
    rcases List.mem_cons.1 h with rfl | hmem
    · exact ⟨e, List.mem_cons_self, n, rfl⟩
    · obtain ⟨d, hd, m, rfl⟩ := ih hmem
      exact ⟨d, List.mem_cons_of_mem _ hd, m, rfl⟩

/-- Where a truth value is asked for, something stands that may be one. -/
theorem mayBeTruth_rename (h : inferIn scope e = .ok .bool) (names : List (String × String)) (n : Nat) :
    (rename names (withNames found e) n).1.mayBeTruth = true := by
  induction e using treeInduction generalizing scope names n with
  | const value =>
    cases value with
    | bool b => rfl
    | _ => cases h
  | bind name value body _ ihb =>
    obtain ⟨t, -, hbody⟩ := inferIn_bind.1 h
    exact ihb hbody _ _
  | _ => rfl

/-- A well-typed tree stays legible with the names of lookups for its objects and new names for its bindings. -/
theorem legible_rename (h : inferIn scope e = .ok ty)
    (hscope : ∀ b ∈ scope, S ((names.lookup b.1).getD b.1)) (hnames : ∀ b ∈ names, S b.2)
    (hobjects : ∀ v ∈ e.objects, ∀ object, v.object? = some object → S (nameIn found object))
    (hbound : ∀ x ∈ e.boundNames, ∀ n, MadeName (letName x n)) (n : Nat) :
    Legible S (rename names (withNames found e) n).1 := by
  induction e using treeInduction generalizing S scope names ty n with
  | const value =>
    unfold withNames
    cases hobject : value.object? with
    | none => exact .const value
    | some object =>
      have hname := hobjects value (by simp [objects, hobject]) object hobject
      -- A binding may hide the name of a lookup. The unit then reads that binding, which is in scope as well.
      refine .var ?_
      cases hlookup : names.lookup (nameIn found object) with
      | none => exact hname
      | some y =>
        obtain ⟨before, behind, heq, -⟩ := List.lookup_eq_some_iff.1 hlookup
        exact hnames (nameIn found object, y) (by rw [heq]; simp)
  | var name =>
    obtain ⟨before, behind, heq, -⟩ := List.lookup_eq_some_iff.1 (inferIn_var.1 h)
    exact .var (hscope (name, ty) (by rw [heq]; simp))
  | member inner field ih =>
    obtain ⟨t, hinner, -⟩ := inferIn_member.1 h
    exact .member field (ih hinner hscope hnames hobjects hbound n)
  | unary op inner ih =>
    obtain ⟨t, hinner, -⟩ := inferIn_unary.1 h
    exact .unary op (ih hinner hscope hnames hobjects hbound n)
  | binary op left right ihl ihr =>
    obtain ⟨l, r, hl, hr, -⟩ := inferIn_binary.1 h
    obtain ⟨hol, hor⟩ := List.forall_mem_append.1 hobjects
    obtain ⟨hbl, hbr⟩ := List.forall_mem_append.1 hbound
    exact .binary op (ihl hl hscope hnames hol hbl n) (ihr hr hscope hnames hor hbr _)
  | branch cond yes no ihc ihy ihn =>
    obtain ⟨hc, hy, hn⟩ := inferIn_branch.1 h
    obtain ⟨hocy, hon⟩ := List.forall_mem_append.1 hobjects
    obtain ⟨hoc, hoy⟩ := List.forall_mem_append.1 hocy
    obtain ⟨hbcy, hbn⟩ := List.forall_mem_append.1 hbound
    obtain ⟨hbc, hby⟩ := List.forall_mem_append.1 hbcy
    exact .branch (mayBeTruth_rename hc names n) (ihc hc hscope hnames hoc hbc n) (ihy hy hscope hnames hoy hby _)
      (ihn hn hscope hnames hon hbn _)
  | bind name value body ihv ihb =>
    obtain ⟨t, hv, hb⟩ := inferIn_bind.1 h
    obtain ⟨hov, hob⟩ := List.forall_mem_append.1 hobjects
    obtain ⟨hname, hrest⟩ := List.forall_mem_cons.1 hbound
    obtain ⟨hbv, hbb⟩ := List.forall_mem_append.1 hrest
    -- In the body the bound name has its new name, and all others keep what they stand for.
    refine .bind (hname _) (ihv hv hscope hnames hov hbv n) (ihb hb ?_ ?_ (fun v hv o ho => .inl (hob v hv o ho)) hbb _)
    · refine List.forall_mem_cons.2 ⟨.inr (by simp), fun b hb => ?_⟩
      by_cases heq : b.1 = name
      · exact .inr (by simp [heq])
      · have hne : (b.1 == name) = false := by simpa using heq
        rw [List.lookup_cons, hne]
        exact .inl (hscope b hb)
    · exact List.forall_mem_cons.2 ⟨.inr (by simp), fun b hb => .inl (hnames b hb)⟩
  | call func args ih =>
    obtain ⟨tys, hargs, htype⟩ := inferIn_call.1 h
    change ∀ v ∈ objectsList args, _ at hobjects
    change ∀ x ∈ boundNamesList args, _ at hbound
    rw [objectsList_eq_flatMap] at hobjects
    rw [boundNamesList_eq_flatMap] at hbound
    have hmem : ∀ e' ∈ (renameList names (withNamesList found args) n).1,
        ∃ e ∈ args, ∃ m, e' = (rename names (withNames found e) m).1 := by
      intro e' he'
      obtain ⟨d, hd, m, rfl⟩ := exists_of_mem_renameList he'
      rw [withNamesList_eq_map] at hd
      obtain ⟨e, he, rfl⟩ := List.mem_map.1 hd
      exact ⟨e, he, m, rfl⟩
    refine .call ?_ (fun hlogical e' he' => ?_) fun e' he' => ?_
    · rw [length_renameList, withNamesList_eq_map, List.length_map, hargs.length_eq]
      exact (Func.type_eq_ok_iff.1 htype).1
    · obtain ⟨e, he, m, rfl⟩ := hmem e' he'
      obtain ⟨t, ht, hety⟩ := hargs.exists_of_mem_left he
      rw [Func.forall_eq_bool_of_type hlogical htype t ht] at hety
      exact mayBeTruth_rename hety names m
    · obtain ⟨e, he, m, rfl⟩ := hmem e' he'
      obtain ⟨t, -, hety⟩ := hargs.exists_of_mem_left he
      exact ih e he hety hscope hnames (fun v hv => hobjects v (List.mem_flatMap.2 ⟨e, he, hv⟩))
        (fun x hx => hbound x (List.mem_flatMap.2 ⟨e, he, hx⟩)) m

end Rename

/-! ### Lifting -/

/-- Bindings that can be printed so that they are read again, each given the names in scope and those of the
bindings before it. -/
inductive LegibleBindings : (String → Prop) → List Binding → Prop
  | nil (S : String → Prop) : LegibleBindings S []
  | cons {S : String → Prop} {b : Binding} {bs : List Binding}
    (guard : ∀ cond, b.guard = some cond → Legible S cond ∧ cond.mayBeTruth = true) (value : Legible S b.value)
    (name : MadeName b.name) (rest : LegibleBindings (Scoped S [b.name]) bs) : LegibleBindings S (b :: bs)

variable {bs cs : List Binding}

theorem LegibleBindings.mono (h : LegibleBindings S bs) (hle : ∀ x, S x → T x) : LegibleBindings T bs := by
  induction h generalizing T with
  | nil => exact .nil T
  | cons guard value name _ ih =>
    exact .cons (fun cond hcond => ⟨(guard cond hcond).1.mono hle, (guard cond hcond).2⟩) (value.mono hle) name
      (ih (Scoped.mono hle fun _ hx => hx))

theorem LegibleBindings.append (h : LegibleBindings S bs) (h' : LegibleBindings (Scoped S (bs.map (·.name))) cs) :
    LegibleBindings S (bs ++ cs) := by
  induction h with
  | nil S => exact h'.mono fun x hx => hx.elim id fun hnil => nomatch hnil
  | cons guard value name _ ih =>
    exact .cons guard value name (ih (h'.mono fun x hx => (scoped_append x).1 hx))

theorem le_scoped (xs : List String) (x : String) (h : S x) : Scoped S xs x := .inl h

theorem Legible.enter (h : Legible S e) (xs : List String) : Legible (Scoped S xs) e := h.mono (le_scoped xs)

theorem Legible.left (h : Legible (Scoped S (bs.map (·.name))) e) :
    Legible (Scoped S ((bs ++ cs).map (·.name))) e :=
  h.mono (Scoped.mono (fun _ hx => hx) fun x hx => by simpa using Or.inl (List.mem_map.1 hx))

theorem scoped_bindings (x : String) (h : Scoped (Scoped S (bs.map (·.name))) (cs.map (·.name)) x) :
    Scoped S ((bs ++ cs).map (·.name)) x := by
  rwa [List.map_append, scoped_append]

theorem Legible.right (h : Legible (Scoped (Scoped S (bs.map (·.name))) (cs.map (·.name))) e) :
    Legible (Scoped S ((bs ++ cs).map (·.name))) e :=
  h.mono scoped_bindings

theorem Legible.of_nil (h : Legible (Scoped S []) e) : Legible S e :=
  h.mono fun _ hx => hx.elim id fun hnil => nomatch hnil

/-- Conditions that can be read: legible trees that may be truth values. -/
structure Condition (S : String → Prop) (e : Expr) : Prop where
  legible : Legible S e
  truth : e.mayBeTruth = true

theorem mayBeTruth_atom (h : e.mayBeTruth = true) (n : Nat) : (atom e n).1.mayBeTruth = true := by
  cases e with
  | const | var => exact h
  | _ => rfl

/-- Conditions that lead to a place. The names that conditions get are in scope in any case: a condition that is not
named is not repeated either. -/
structure Conditions (S : String → Prop) (guard : List Expr) : Prop where
  names : ∀ n, S (guardName n)
  all : ∀ g ∈ guard, Condition S g

namespace Conditions

theorem enter (h : Conditions S guard) (xs : List String) : Conditions (Scoped S xs) guard where
  names n := .inl (h.names n)
  all g hg := ⟨(h.all g hg).legible.enter xs, (h.all g hg).truth⟩

theorem atom (h : Conditions S guard) (he : Condition S e) (n : Nat) : Condition S (atom e n).1 := by
  refine ⟨?_, mayBeTruth_atom he.truth n⟩
  cases e with
  | const | var => exact he.legible
  | _ => exact .var (h.names n)

/-- The conditions behind a test that leads on if it holds, or if it does not. -/
theorem concat (h : Conditions S guard) (he : Condition S e) (n : Nat) (short : Bool) :
    Conditions S (guard ++ [if short then negation (Expr.atom e n).1 else (Expr.atom e n).1]) where
  names := h.names
  all := by
    refine List.forall_mem_append.2 ⟨h.all, List.forall_mem_singleton.2 ?_⟩
    cases short with
    | true => exact ⟨.unary .not (h.atom he n).legible, rfl⟩
    | false => exact h.atom he n

theorem conjunction (h : Conditions S guard) : ∀ cond, conjunction guard = some cond →
    Legible S cond ∧ cond.mayBeTruth = true := by
  intro cond hcond
  match guard, hcond with
  | [_], rfl => exact ⟨(h.all cond (by simp)).legible, (h.all cond (by simp)).truth⟩
  | _ :: _ :: _, rfl =>
    refine ⟨.call (by simp [Func.takes, Func.arity?]) (fun _ e he => (h.all e he).truth) ?_, rfl⟩
    exact fun e he => (h.all e he).legible

theorem guarded (h : Conditions S guard) (hvalue : Legible S value) {x : String} (hname : MadeName x)
    (hrest : LegibleBindings (Scoped S [x]) bs) : LegibleBindings S (guarded guard x value :: bs) :=
  .cons h.conjunction hvalue hname hrest

theorem naming (h : Conditions S guard) (hvalue : Legible S value) (n : Nat) :
    LegibleBindings S (naming guard value (Expr.atom value n).2.1) := by
  cases value with
  | const | var => exact .nil _
  | _ => exact h.guarded hvalue (madeName_guardName n) (.nil _)

end Conditions

/-- What lifting makes of legible trees. If `deciding`, they are operands, each of which may decide. -/
structure LiftsLegible (deciding : Prop) (guard es es' : List Expr) (bs : List Binding) : Prop where
  length : es'.length = es.length
  truth : (∀ e ∈ es, e.mayBeTruth = true) → ∀ e ∈ es', e.mayBeTruth = true
  legible : ∀ S : String → Prop, Conditions S guard → (∀ e ∈ es, Legible S e) →
    (deciding → ∀ e ∈ es, e.mayBeTruth = true) →
      LegibleBindings S bs ∧ ∀ e ∈ es', Legible (Scoped S (bs.map (·.name))) e

namespace LiftsLegible

variable {deciding : Prop} {es es' : List Expr} {e' : Expr}

theorem single (h : LiftsLegible False guard [e] [e'] bs) (hguard : Conditions S guard) (he : Legible S e) :
    LegibleBindings S bs ∧ Legible (Scoped S (bs.map (·.name))) e' := by
  obtain ⟨hbs, hrest⟩ := h.legible S hguard (List.forall_mem_singleton.2 he) False.elim
  exact ⟨hbs, hrest e' (List.mem_singleton_self e')⟩

theorem single_truth (h : LiftsLegible False guard [e] [e'] bs) (he : e.mayBeTruth = true) :
    e'.mayBeTruth = true :=
  h.truth (List.forall_mem_singleton.2 he) e' (List.mem_singleton_self e')

/-- What is lifted out of one tree. -/
theorem ofSingle (htruth : e.mayBeTruth = true → e'.mayBeTruth = true)
    (hlegible : ∀ S : String → Prop, Conditions S guard → Legible S e →
      LegibleBindings S bs ∧ Legible (Scoped S (bs.map (·.name))) e') : LiftsLegible False guard [e] [e'] bs where
  length := rfl
  truth h := List.forall_mem_singleton.2 (htruth (h e (List.mem_singleton_self e)))
  legible S hguard he _ := by
    obtain ⟨hbs, hrest⟩ := hlegible S hguard (he e (List.mem_singleton_self e))
    exact ⟨hbs, List.forall_mem_singleton.2 hrest⟩

variable {cond cond' yes yes' no no' value' body body' : Expr} {ds : List Binding} {short : Bool} {n : Nat}

/-- A condition that gets no name, and the conditions behind it. -/
theorem condition (h : LiftsLegible False guard [cond] [cond'] bs) (hguard : Conditions S guard)
    (hcond : Condition S cond) (n : Nat) : LegibleBindings S bs ∧ Condition (Scoped S (bs.map (·.name))) cond' ∧
      ∀ short : Bool, Conditions (Scoped S (bs.map (·.name)))
        (guard ++ [if short then negation (atom cond' n).1 else (atom cond' n).1]) := by
  obtain ⟨hbs, hcond'⟩ := h.single hguard hcond.legible
  have htest : Condition (Scoped S (bs.map (·.name))) cond' := ⟨hcond', h.single_truth hcond.truth⟩
  exact ⟨hbs, htest, (hguard.enter _).concat htest n⟩

/-- A condition that gets a name, and the conditions behind it. -/
theorem named (h : LiftsLegible False guard [cond] [cond'] bs) (hguard : Conditions S guard)
    (hcond : Condition S cond) (n : Nat) {cs : List Binding}
    (hcs : cs = bs ++ Expr.naming guard cond' (atom cond' n).2.1) :
    LegibleBindings S cs ∧ Condition (Scoped S (cs.map (·.name))) (atom cond' n).1 ∧
      ∀ short : Bool, Conditions (Scoped S (cs.map (·.name)))
        (guard ++ [if short then negation (atom cond' n).1 else (atom cond' n).1]) := by
  obtain ⟨hbs, hcond', -⟩ := h.condition hguard hcond n
  have htest : Condition (Scoped S (cs.map (·.name))) cond' := by
    rw [hcs]
    exact ⟨hcond'.legible.left, hcond'.truth⟩
  refine ⟨?_, (hguard.enter _).atom htest n, (hguard.enter _).concat htest n⟩
  rw [hcs]
  exact hbs.append ((hguard.enter _).naming hcond'.legible n)

theorem binary (op : BinOp) {left left' right right' : Expr} (hl : LiftsLegible False guard [left] [left'] bs)
    (hr : LiftsLegible False guard [right] [right'] cs) :
    LiftsLegible False guard [.binary op left right] [.binary op left' right'] (bs ++ cs) :=
  .ofSingle id fun S hguard he => by
    cases he with
    | binary _ hleft hright =>
      obtain ⟨hbs, hleft'⟩ := hl.single hguard hleft
      obtain ⟨hcs, hright'⟩ := hr.single (hguard.enter _) (hright.enter _)
      exact ⟨hbs.append hcs, .binary op hleft'.left hright'.right⟩

theorem bind (name : String) (hv : LiftsLegible False guard [value] [value'] bs)
    (hb : LiftsLegible False guard [body] [body'] cs) :
    LiftsLegible False guard [.bind name value body] [body'] (bs ++ guarded guard name value' :: cs) :=
  .ofSingle hb.single_truth fun S hguard he => by
    cases he with
    | bind hname hvalue hbody =>
      -- What the value needs is bound first, then the name, then what the body needs.
      obtain ⟨hbs, hvalue'⟩ := hv.single hguard hvalue
      have hguard' := hguard.enter (bs.map (·.name))
      have hentered : Legible (Scoped (Scoped S (bs.map (·.name))) [name]) body :=
        hbody.mono (Scoped.mono (le_scoped _) fun _ hx => hx)
      obtain ⟨hcs, hbody'⟩ := hb.single (hguard'.enter [name]) hentered
      refine ⟨hbs.append (hguard'.guarded hvalue' hname hcs), Legible.right ?_⟩
      exact hbody'.mono fun x hx => (scoped_append x).2 hx

theorem choice (hc : LiftsLegible False guard [cond] [cond'] bs)
    (hy : LiftsLegible False (guard ++ [(atom cond' n).1]) [yes] [yes'] [])
    (hn : LiftsLegible False (guard ++ [negation (atom cond' n).1]) [no] [no'] []) :
    LiftsLegible False guard [.branch cond yes no] [.branch cond' yes' no'] bs :=
  .ofSingle id fun S hguard he => by
    cases he with
    | branch htruth hcond hyes hno =>
      obtain ⟨hbs, hcond', hbehind⟩ := hc.condition hguard ⟨hcond, htruth⟩ n
      obtain ⟨-, hyes'⟩ := hy.single (hbehind false) (hyes.enter _)
      obtain ⟨-, hno'⟩ := hn.single (hbehind true) (hno.enter _)
      exact ⟨hbs, .branch hcond'.truth hcond'.legible hyes'.of_nil hno'.of_nil⟩

theorem namedChoice (hc : LiftsLegible False guard [cond] [cond'] bs)
    (hy : LiftsLegible False (guard ++ [(atom cond' n).1]) [yes] [yes'] cs)
    (hn : LiftsLegible False (guard ++ [negation (atom cond' n).1]) [no] [no'] ds) :
    LiftsLegible False guard [.branch cond yes no] [.branch (atom cond' n).1 yes' no']
      (bs ++ Expr.naming guard cond' (atom cond' n).2.1 ++ cs ++ ds) :=
  .ofSingle (fun _ => rfl) fun S hguard he => by
    cases he with
    | branch htruth hcond hyes hno =>
      obtain ⟨hbs, htest, hbehind⟩ := hc.named hguard ⟨hcond, htruth⟩ n rfl
      obtain ⟨hcs, hyes'⟩ := hy.single (hbehind false) (hyes.enter _)
      obtain ⟨hds, hno'⟩ := hn.single ((hbehind true).enter _) ((hno.enter _).enter _)
      refine ⟨(hbs.append hcs).append (hds.mono scoped_bindings), ?_⟩
      have hno'' := hno'.mono (Scoped.mono scoped_bindings fun _ hx => hx)
      exact .branch htest.truth htest.legible.left.left hyes'.right.left hno''.right

/-- A tree before others. -/
theorem cons (he : LiftsLegible False guard [e] [e'] bs) (hes : LiftsLegible False guard es es' cs) :
    LiftsLegible False guard (e :: es) (e' :: es') (bs ++ cs) where
  length := congrArg Nat.succ hes.length
  truth h := by
    obtain ⟨hfirst, hrest⟩ := List.forall_mem_cons.1 h
    exact List.forall_mem_cons.2 ⟨he.single_truth hfirst, hes.truth hrest⟩
  legible S hguard hall _ := by
    obtain ⟨hfirst, hrest⟩ := List.forall_mem_cons.1 hall
    obtain ⟨hbs, hfirst'⟩ := he.single hguard hfirst
    obtain ⟨hcs, hrest'⟩ := hes.legible _ (hguard.enter _) (fun d hd => (hrest d hd).enter _) False.elim
    exact ⟨hbs.append hcs, List.forall_mem_cons.2 ⟨hfirst'.left, fun d hd => (hrest' d hd).right⟩⟩

/-- An operand before others that have no bindings. -/
theorem operand (he : LiftsLegible False guard [e] [e'] bs)
    (hes : LiftsLegible True (guard ++ [if short then negation (atom e' n).1 else (atom e' n).1]) es es' []) :
    LiftsLegible True guard (e :: es) (e' :: es') bs where
  length := congrArg Nat.succ hes.length
  truth h := by
    obtain ⟨hfirst, hrest⟩ := List.forall_mem_cons.1 h
    exact List.forall_mem_cons.2 ⟨he.single_truth hfirst, hes.truth hrest⟩
  legible S hguard hall htruth := by
    obtain ⟨hfirst, hrest⟩ := List.forall_mem_cons.1 hall
    obtain ⟨htfirst, htrest⟩ := List.forall_mem_cons.1 (htruth trivial)
    obtain ⟨hbs, hfirst', hbehind⟩ := he.condition hguard ⟨hfirst, htfirst⟩ n
    obtain ⟨-, hrest'⟩ := hes.legible _ (hbehind short) (fun d hd => (hrest d hd).enter _) fun _ => htrest
    exact ⟨hbs, List.forall_mem_cons.2 ⟨hfirst'.legible, fun d hd => (hrest' d hd).of_nil⟩⟩

/-- An operand before others of which some have bindings. -/
theorem namedOperand (he : LiftsLegible False guard [e] [e'] bs)
    (hes : LiftsLegible True (guard ++ [if short then negation (atom e' n).1 else (atom e' n).1]) es es' cs) :
    LiftsLegible True guard (e :: es) ((atom e' n).1 :: es')
      (bs ++ Expr.naming guard e' (atom e' n).2.1 ++ cs) where
  length := congrArg Nat.succ hes.length
  truth h := by
    obtain ⟨hfirst, hrest⟩ := List.forall_mem_cons.1 h
    exact List.forall_mem_cons.2 ⟨mayBeTruth_atom (he.single_truth hfirst) n, hes.truth hrest⟩
  legible S hguard hall htruth := by
    obtain ⟨hfirst, hrest⟩ := List.forall_mem_cons.1 hall
    obtain ⟨htfirst, htrest⟩ := List.forall_mem_cons.1 (htruth trivial)
    obtain ⟨hbs, htest, hbehind⟩ := he.named hguard ⟨hfirst, htfirst⟩ n rfl
    obtain ⟨hcs, hrest'⟩ := hes.legible _ (hbehind short) (fun d hd => (hrest d hd).enter _) fun _ => htrest
    exact ⟨hbs.append hcs, List.forall_mem_cons.2 ⟨htest.legible.left, fun d hd => (hrest' d hd).right⟩⟩

end LiftsLegible

/-- Lifting keeps trees legible. -/
theorem legible_rules :
    LiftRules (fun guard e _ e' bs _ => LiftsLegible False guard [e] [e'] bs)
      (fun guard es _ es' bs _ => LiftsLegible False guard es es' bs)
      (fun _ guard es _ es' bs _ => LiftsLegible True guard es es' bs) where
  const := .ofSingle id fun S _ h => ⟨.nil S, h.enter _⟩
  var := .ofSingle id fun S _ h => ⟨.nil S, h.enter _⟩
  member field h := .ofSingle id fun S hguard he => by
    cases he with
    | member _ hinner =>
      obtain ⟨hbs, hinner'⟩ := h.single hguard hinner
      exact ⟨hbs, .member field hinner'⟩
  unary op h := .ofSingle id fun S hguard he => by
    cases he with
    | unary _ hinner =>
      obtain ⟨hbs, hinner'⟩ := h.single hguard hinner
      exact ⟨hbs, .unary op hinner'⟩
  binary op hl hr := hl.binary op hr
  bind name hv hb := hv.bind name hb
  choice hc hy hn := hc.choice hy hn
  namedChoice hc hy hn _ := hc.namedChoice hy hn
  call hfunc h := .ofSingle id fun S hguard he => by
    cases he with
    | call htakes htruth hargs =>
      obtain ⟨hbs, hargs'⟩ := h.legible S hguard hargs False.elim
      refine ⟨hbs, .call (h.length ▸ htakes) (fun hlogical => ?_) hargs'⟩
      rcases hlogical with rfl | rfl <;> cases hfunc
  deciding {_ func _ _ _ _ _ _} hfunc h := .ofSingle id fun S hguard he => by
    cases he with
    | call htakes htruth hargs =>
      have htruth' := htruth (by cases func <;> first | exact .inl rfl | exact .inr rfl | cases hfunc)
      obtain ⟨hbs, hargs'⟩ := h.legible S hguard hargs fun _ => htruth'
      exact ⟨hbs, .call (h.length ▸ htakes) (fun _ => h.truth htruth') hargs'⟩
  noArgument := ⟨rfl, fun h => h, fun S _ _ _ => ⟨.nil S, List.forall_mem_nil _⟩⟩
  argument he hes := he.cons hes
  noOperand := ⟨rfl, fun h => h, fun S _ _ _ => ⟨.nil S, List.forall_mem_nil _⟩⟩
  operand he hes := he.operand hes
  namedOperand he hes _ := he.namedOperand hes

end Expr

/-! ### Lines -/

namespace Expr

variable {S : String → Prop} {e : Expr}

/-- Legible trees without bindings and objects can be printed. -/
theorem Legible.printable (h : Legible S e) (hlets : e.lets = 0) (hobjects : e.objects = []) : e.Printable := by
  induction h with
  | const value =>
    cases value with
    | timer | entity => cases hobjects
    | _ => exact .const (fun h => by cases h) fun h => by cases h
  | var => exact .var _
  | member field _ ih => exact .member field (ih hlets hobjects)
  | unary op _ ih => exact .unary op (ih hlets hobjects)
  | binary op _ _ ihl ihr =>
    obtain ⟨hll, hlr⟩ := Nat.add_eq_zero_iff.1 hlets
    obtain ⟨hol, hor⟩ := List.append_eq_nil_iff.1 hobjects
    exact .binary op (ihl hll hol) (ihr hlr hor)
  | @call S func args htakes _ _ ih =>
    have hne : args ≠ [] := by
      rintro rfl
      cases func <;> cases htakes
    change objectsList args = [] at hobjects
    rw [objectsList_eq_flatMap, List.flatMap_eq_nil_iff] at hobjects
    exact .call func hne fun e he => ih e he (lets_eq_zero_of_mem hlets he) (hobjects e he)
  | branch _ _ _ _ ihc ihy ihn =>
    obtain ⟨hlcy, hln⟩ := Nat.add_eq_zero_iff.1 hlets
    obtain ⟨hlc, hly⟩ := Nat.add_eq_zero_iff.1 hlcy
    obtain ⟨hocy, hon⟩ := List.append_eq_nil_iff.1 hobjects
    obtain ⟨hoc, hoy⟩ := List.append_eq_nil_iff.1 hocy
    exact .branch (ihc hlc hoc) (ihy hly hoy) (ihn hln hon)
  | bind =>
    rw [lets] at hlets
    omega

theorem takes_phrases_of_takes {func : Func} {args : List Expr} (h : func.takes args.length = true) :
    func.takes (phrases args).length = true := by
  rwa [phrases_eq_map, List.length_map]

/-- What may be a truth value is printed as something that may be one. -/
theorem Legible.mayBeTruth_phrase (h : Legible S e) (hprintable : e.Printable) (htruth : e.mayBeTruth = true) :
    e.phrase.term.mayBeTruth = true := by
  have hof : ∀ {t : Term}, t.isConstant = false → t.mayBeTruth = true := by
    intro t ht
    cases t <;> first | rfl | cases ht
  cases hprintable with
  | @const value =>
    cases value with
    | bool b => rfl
    | _ => cases htruth
  | call func hargs _ =>
    cases h with
    | call htakes => exact hof (Func.isConstant_phrase (takes_phrases_of_takes htakes))
  | _ => rfl

/-- The phrase of a legible tree can be read, if all names in scope can be. -/
theorem Legible.readable (h : Legible S e) (hprintable : e.Printable)
    (hscope : ∀ x, S x → isFunctionName x = true) : e.phrase.Readable := by
  induction hprintable with
  | const htimer hentity => exact Value.readable_phrase htimer hentity
  | var name =>
    cases h with
    | var hname => exact .name (hscope name hname)
  | member field _ ih =>
    cases h with
    | member _ hinner => exact .call (by cases field <;> decide +kernel) (List.forall_mem_singleton.2 (ih hinner))
  | unary op _ ih =>
    cases h with
    | unary _ hinner => exact .call (by cases op <;> decide +kernel) (List.forall_mem_singleton.2 (ih hinner))
  | binary op _ _ ihl ihr =>
    cases h with
    | binary _ hleft hright =>
      exact .chain rfl (by simp) (ihl hleft) (List.forall_mem_singleton.2 (ihr hright)) fun h => by cases h
  | call func _ hprintable ih =>
    cases h with
    | call htakes htruth hargs =>
      refine Func.readable_phrase (takes_phrases_of_takes htakes) ?_ fun hlogical => ?_
      · rw [phrases_eq_map, List.forall_mem_map]
        exact fun e he => ih e he (hargs e he)
      · rw [phrases_eq_map, List.forall_mem_map]
        exact fun e he => (hargs e he).mayBeTruth_phrase (hprintable e he) (htruth hlogical e he)
  | branch hpc _ _ ihc ihy ihn =>
    cases h with
    | branch htruth hcond hyes hno =>
      exact .choice (ihc hcond) (ihy hyes) (ihn hno) (hcond.mayBeTruth_phrase hpc htruth)

theorem LegibleBindings.printable {bs : List Binding} (h : LegibleBindings S bs) (hbare : ∀ b ∈ bs, b.Bare) :
    ∀ b ∈ bs, b.Printable := by
  induction h with
  | nil => exact List.forall_mem_nil _
  | cons guard value _ _ ih =>
    obtain ⟨hb, hbs⟩ := List.forall_mem_cons.1 hbare
    refine List.forall_mem_cons.2 ⟨⟨fun cond hcond => ?_, value.printable hb.value.lets hb.value.objects⟩, ih hbs⟩
    have hguard := hb.guard cond hcond
    exact (guard cond hcond).1.printable hguard.lets hguard.objects

/-- Legible bindings that can be printed can be read up to the first name that is refused. Then what follows can be
read if all names in scope can be. -/
theorem LegibleBindings.readsOn {bs : List Binding} (h : LegibleBindings S bs) (hprintable : ∀ b ∈ bs, b.Printable)
    (hscope : ∀ x, S x → isFunctionName x = true) {more : List Line}
    (hmore : (∀ x, Scoped S (bs.map (·.name)) x → isFunctionName x = true) → Line.ReadsOn more) :
    Line.ReadsOn (bs.map Binding.line ++ more) := by
  induction h with
  | nil S => exact hmore fun x hx => hx.elim (hscope x) fun hnil => nomatch hnil
  | @cons S b bs guard value name _ ih =>
    obtain ⟨hb, hbs⟩ := List.forall_mem_cons.1 hprintable
    -- The first name that is no word ends the reading, and all lines before it bind names that are words.
    cases hword : ChunkToken.isWord b.name.toList with
    | true =>
      have hname : isFunctionName b.name = true :=
        (RecordedUnit.isFunctionName_of_identifier name.1).2 ⟨hword, name.2⟩
      have hscope' : ∀ x, Scoped S [b.name] x → isFunctionName x = true := fun x hx =>
        hx.elim (hscope x) fun hx => List.mem_singleton.1 hx ▸ hname
      have hvalue := value.readable hb.value hscope
      refine .cons ?_ (ih hbs hscope' fun hall => hmore fun x hx => hall x ?_)
      · unfold Binding.line
        split
        · exact .bind hname hvalue
        · rename_i cond hcond
          obtain ⟨hlegible, htruth⟩ := guard cond hcond
          have hpc := hb.guard cond hcond
          exact .guarded hname (hlegible.readable hpc hscope) hvalue (hlegible.mayBeTruth_phrase hpc htruth)
      · exact (scoped_append x).1 hx
    | false =>
      refine .refused ?_ name.1 hword
      unfold Binding.line
      cases b.guard <;> rfl

/-! ### Units -/

section Units

variable {scope : Scope} {ty : ValueType} (h : inferIn scope e = .ok ty) (hbound : ∀ x ∈ e.boundNames, Identifier x)

include h hbound

/-- The linear form of a well-typed tree is legible, whatever the names that it makes are equal to. -/
theorem legible_linear (hscope : ∀ b ∈ scope, S b.1) (hlookups : ∀ object index, S (hoistedName object index))
    (hguards : ∀ n, S (guardName n)) :
    LegibleBindings S e.linear.bindings ∧ Legible (Scoped S (e.linear.bindings.map (·.name))) e.linear.result := by
  have htree : Legible S (rename [] (withNames e.lookups e.flatten) 0).1 := by
    refine legible_rename (inferIn_flatten h) hscope (List.forall_mem_nil _) (fun v hv object hobject => ?_) ?_ 0
    · rw [objects_flatten] at hv
      obtain ⟨known, hknown, -, hname⟩ := exists_nameIn (lists_declareAll [] hv hobject)
      obtain ⟨index, hindex⟩ := (declares_lookups e).exists_name hknown
      change S (nameIn (declareAll [] e.objects) object)
      rw [hname, hindex]
      exact hlookups _ _
    · rw [boundNames_flatten]
      exact fun x hx n => madeName_letName n (hbound x hx)
  rw [linear_eq]
  exact (legible_rules.lift [] _ 0).single ⟨hguards, List.forall_mem_nil _⟩ htree

theorem printable_linear : e.linear.Printable := by
  have hbare := bare_linear e
  obtain ⟨hbindings, hresult⟩ := legible_linear (S := fun _ => True) h hbound (fun _ _ => trivial)
    (fun _ _ => trivial) fun _ => trivial
  exact ⟨hbindings.printable hbare.bindings, hresult.printable hbare.result.lets hbare.result.objects⟩

/-- A well-typed tree is recorded as its lines. -/
theorem printUnit_of_infer : e.printUnit = .ok ("\n".intercalate (e.unitLines.map Line.toText)) :=
  Linear.print_lines (printable_linear h hbound)

/-- The lines of a well-typed tree can be read up to the first name that is refused. -/
theorem readsOn_unitLines (hscope : ∀ b ∈ scope, isFunctionName b.1 = true) :
    Line.ReadsOn e.unitLines := by
  obtain ⟨hbindings, hresult⟩ := legible_linear (S := fun x => isFunctionName x = true) h hbound hscope
    isFunctionName_hoistedName isFunctionName_guardName
  obtain ⟨hpb, hpr⟩ := printable_linear h hbound
  have hlines : Line.ReadsOn (e.linear.bindings.map Binding.line ++ [.give e.linear.result.phrase]) :=
    hbindings.readsOn hpb (fun _ hx => hx) fun hall => .cons (.give (hresult.readable hpr hall)) .nil
  have hall := Line.ReadsOn.append (readable_lookups e) hlines
  rwa [← List.append_assoc] at hall

end Units

end Expr

end Barrage
