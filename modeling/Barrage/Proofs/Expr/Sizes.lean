import Barrage.Proofs.Expr.Hoisting
import Barrage.Proofs.Expr.LiftRules

/-!
# Sizes of trees

Naming lookups and renaming bindings keep the number of nodes of a tree, and joining nested calls and lifting
bindings do not raise it. What a lifted binding stands under is a list of conditions of at most two nodes each,
and the tree has a node for each of them.

## Main definitions

* `Expr.nodes` — the number of nodes of a tree
* `Binding.Small` — bindings that are small for a number of nodes
* `Expr.LiftsSmall`, `Expr.LiftsNames` — how small what is lifted out of a tree is, and which names it has

## Main results

* `Expr.nodes_flatten_le`, `Expr.nodes_withNames`, `Expr.nodes_rename` — what is done before lifting
* `Expr.small_lift` — what is lifted out of a tree is small
* `Expr.names_lift` — every name that a tree binds is one of a lifted binding
-/

namespace Barrage

namespace Expr

mutual

/-- Number of nodes. -/
def nodes : Expr → Nat
  | const _ | var _ => 1
  | member inner _ | unary _ inner => inner.nodes + 1
  | binary _ left right => left.nodes + right.nodes + 1
  | call _ args => nodesList args + 1
  | branch cond yes no => cond.nodes + yes.nodes + no.nodes + 1
  | bind _ value body => value.nodes + body.nodes + 1

/-- Number of nodes of a list. -/
def nodesList : List Expr → Nat
  | [] => 0
  | e :: es => e.nodes + nodesList es

end

theorem nodes_pos (e : Expr) : 0 < e.nodes := by
  cases e <;> exact Nat.succ_pos _

theorem nodesList_append (es es' : List Expr) : nodesList (es ++ es') = nodesList es + nodesList es' := by
  induction es with
  | nil => exact (Nat.zero_add _).symm
  | cons e es ih => rw [List.cons_append, nodesList, nodesList, ih, Nat.add_assoc]

/-! ### Before bindings are lifted -/

theorem nodesList_splice_le (func : Func) (e : Expr) : nodesList (splice func e) ≤ e.nodes := by
  cases e with
  | call inner args =>
    rw [splice]
    split
    · exact Nat.le_succ _
    · exact Nat.le_refl _
  | _ => exact Nat.le_refl _

theorem nodes_flatten_le (e : Expr) : e.flatten.nodes ≤ e.nodes := by
  induction e using treeInduction with
  | const | var => exact Nat.le_refl _
  | member inner field ih => exact Nat.succ_le_succ ih
  | unary op inner ih => exact Nat.succ_le_succ ih
  | binary op left right ihl ihr => exact Nat.succ_le_succ (Nat.add_le_add ihl ihr)
  | branch cond yes no ihc ihy ihn => exact Nat.succ_le_succ (Nat.add_le_add (Nat.add_le_add ihc ihy) ihn)
  | bind name value body ihv ihb => exact Nat.succ_le_succ (Nat.add_le_add ihv ihb)
  | call func args ih =>
    refine Nat.succ_le_succ ?_
    induction args with
    | nil => exact Nat.le_refl _
    | cons e es ihes =>
      have hfirst := Nat.le_trans (nodesList_splice_le func e.flatten) (ih e (by simp))
      have hrest := ihes fun e he => ih e (by simp [he])
      rw [flattenArgs, nodesList_append, nodesList]
      exact Nat.add_le_add hfirst hrest

theorem nodes_withNames (found : List Hoisted) (e : Expr) : (withNames found e).nodes = e.nodes := by
  induction e using treeInduction with
  | const value => cases value <;> rfl
  | var name => rfl
  | member inner field ih => exact congrArg (· + 1) ih
  | unary op inner ih => exact congrArg (· + 1) ih
  | binary op left right ihl ihr => exact congrArg₂ (· + · + 1) ihl ihr
  | branch cond yes no ihc ihy ihn => exact congrArg₂ (· + · + 1) (congrArg₂ (· + ·) ihc ihy) ihn
  | bind name value body ihv ihb => exact congrArg₂ (· + · + 1) ihv ihb
  | call func args ih =>
    refine congrArg (· + 1) ?_
    induction args with
    | nil => rfl
    | cons e es ihes =>
      exact congrArg₂ (· + ·) (ih e (by simp)) (ihes fun e he => ih e (by simp [he]))

theorem nodes_rename (names : List (String × String)) (e : Expr) (count : Nat) :
    (rename names e count).1.nodes = e.nodes := by
  induction e using treeInduction generalizing names count with
  | const | var => rfl
  | member inner field ih => exact congrArg (· + 1) (ih names count)
  | unary op inner ih => exact congrArg (· + 1) (ih names count)
  | binary op left right ihl ihr => exact congrArg₂ (· + · + 1) (ihl names count) (ihr names _)
  | branch cond yes no ihc ihy ihn =>
    exact congrArg₂ (· + · + 1) (congrArg₂ (· + ·) (ihc names count) (ihy names _)) (ihn names _)
  | bind name value body ihv ihb => exact congrArg₂ (· + · + 1) (ihv names count) (ihb _ _)
  | call func args ih =>
    refine congrArg (· + 1) ?_
    induction args generalizing count with
    | nil => rfl
    | cons e es ihes =>
      exact congrArg₂ (· + ·) (ih e (by simp) names count) (ihes (fun e he => ih e (by simp [he])) _)

end Expr

open Barrage.Expr

/-! ### Lifted bindings -/

/-- Whether a binding is small: its value has no more nodes than a tree, and there are no more conditions than
some that are given and the nodes of the tree. -/
structure Binding.Small (given nodes : Nat) (b : Binding) : Prop where
  value : b.value.nodes ≤ nodes
  guard : ∃ gs, b.guard = conjunction gs ∧ gs.length ≤ given + nodes ∧ ∀ g ∈ gs, g.nodes ≤ 2

namespace Binding.Small

variable {given given' m n : Nat} {b : Binding}

theorem mono (h : b.Small given m) (hn : m ≤ n) (hsum : given + m ≤ given' + n) : b.Small given' n := by
  obtain ⟨gs, hguard, hlength, hgs⟩ := h.guard
  exact ⟨Nat.le_trans h.value hn, gs, hguard, Nat.le_trans hlength hsum, hgs⟩

theorem grow (h : b.Small given m) (hn : m ≤ n) : b.Small given n := h.mono hn (Nat.add_le_add_left hn _)

theorem of_guarded {guard : List Expr} (hguard : ∀ g ∈ guard, g.nodes ≤ 2) (name : String) {value : Expr}
    (hvalue : value.nodes ≤ n) : (guarded guard name value).Small guard.length n :=
  ⟨hvalue, guard, rfl, Nat.le_add_right _ _, hguard⟩

theorem of_naming {guard : List Expr} (hguard : ∀ g ∈ guard, g.nodes ≤ 2) {value : Expr}
    (hvalue : value.nodes ≤ n) (name? : Option String) :
    ∀ b ∈ naming guard value name?, b.Small guard.length n := by
  cases name? with
  | none => exact List.forall_mem_nil _
  | some name => exact List.forall_mem_singleton.2 (of_guarded hguard name hvalue)

end Binding.Small

namespace Expr

theorem nodes_atom (e : Expr) (count : Nat) : (atom e count).1.nodes = 1 := by
  cases e <;> rfl

variable {guard : List Expr}

/-- Conditions with one more, which is repeated as it is or as its opposite. -/
theorem forall_mem_guard (hguard : ∀ g ∈ guard, g.nodes ≤ 2) {test : Expr} (htest : test.nodes = 1)
    (short : Bool) : ∀ g ∈ guard ++ [if short then negation test else test], g.nodes ≤ 2 := by
  refine List.forall_mem_append.2 ⟨hguard, List.forall_mem_singleton.2 ?_⟩
  cases short with
  | true => exact Nat.succ_le_succ (Nat.le_of_eq htest)
  | false => exact Nat.le_succ_of_le (Nat.le_of_eq htest)

/-- What is lifted out of a tree and what is left of it are small. -/
def LiftsSmall (e : Expr) : Prop :=
  ∀ (guard : List Expr) (count : Nat), (∀ g ∈ guard, g.nodes ≤ 2) →
    (lift guard e count).1.nodes ≤ e.nodes ∧ ∀ b ∈ (lift guard e count).2.1, b.Small guard.length e.nodes

/-- Being small passes through every step of lifting: a condition that is added to those that lead to a part counts
for the node that it came from. -/
theorem small_rules :
    LiftRules
      (fun guard e _ e' bs _ => (∀ g ∈ guard, g.nodes ≤ 2) →
        e'.nodes ≤ e.nodes ∧ ∀ b ∈ bs, b.Small guard.length e.nodes)
      (fun guard es _ es' bs _ => (∀ g ∈ guard, g.nodes ≤ 2) →
        nodesList es' ≤ nodesList es ∧ ∀ b ∈ bs, b.Small guard.length (nodesList es))
      (fun _ guard es _ es' bs _ => (∀ g ∈ guard, g.nodes ≤ 2) →
        nodesList es' ≤ nodesList es ∧ ∀ b ∈ bs, b.Small guard.length (nodesList es)) where
  const _ := ⟨Nat.le_refl _, List.forall_mem_nil _⟩
  var _ := ⟨Nat.le_refl _, List.forall_mem_nil _⟩
  member _ h hguard := (h hguard).imp Nat.succ_le_succ fun hsmall b hb => (hsmall b hb).grow (Nat.le_succ _)
  unary _ h hguard := (h hguard).imp Nat.succ_le_succ fun hsmall b hb => (hsmall b hb).grow (Nat.le_succ _)
  binary _ hl hr hguard := by
    obtain ⟨hleft, hbefore⟩ := hl hguard
    obtain ⟨hright, hafter⟩ := hr hguard
    refine ⟨Nat.succ_le_succ (Nat.add_le_add hleft hright),
      List.forall_mem_append.2 ⟨fun b hb => ?_, fun b hb => ?_⟩⟩
    · exact (hbefore b hb).grow (by rw [nodes]; omega)
    · exact (hafter b hb).grow (by rw [nodes]; omega)
  bind name hv hb hguard := by
    obtain ⟨hvalue, hbefore⟩ := hv hguard
    obtain ⟨hbody, hafter⟩ := hb hguard
    refine ⟨Nat.le_trans hbody (Nat.le_succ_of_le (Nat.le_add_left _ _)), List.forall_mem_append.2 ⟨fun b hb => ?_,
      List.forall_mem_cons.2 ⟨.of_guarded hguard name (by rw [nodes]; omega), fun b hb => ?_⟩⟩⟩
    · exact (hbefore b hb).grow (by rw [nodes]; omega)
    · exact (hafter b hb).grow (by rw [nodes]; omega)
  choice hc hy hn hguard := by
    obtain ⟨hcond, hbefore⟩ := hc hguard
    obtain ⟨hyes, -⟩ := hy (forall_mem_guard hguard (nodes_atom _ _) false)
    obtain ⟨hno, -⟩ := hn (forall_mem_guard hguard (nodes_atom _ _) true)
    refine ⟨Nat.succ_le_succ (Nat.add_le_add (Nat.add_le_add hcond hyes) hno), fun b hb => ?_⟩
    exact (hbefore b hb).grow (by rw [nodes]; omega)
  namedChoice {guard cond _ _ _ cond' _ n₁ _ _ _ _ _ _} hc hy hn _ hguard := by
    obtain ⟨hcond, hbefore⟩ := hc hguard
    obtain ⟨hyes, htrue⟩ := hy (forall_mem_guard hguard (nodes_atom _ _) false)
    obtain ⟨hno, hfalse⟩ := hn (forall_mem_guard hguard (nodes_atom _ _) true)
    have hpos := cond.nodes_pos
    have hatom := nodes_atom cond' n₁
    rw [List.length_append, List.length_singleton] at htrue hfalse
    constructor
    · rw [nodes, nodes]
      omega
    · refine List.forall_mem_append.2 ⟨List.forall_mem_append.2 ⟨List.forall_mem_append.2
        ⟨fun b hb => ?_, fun b hb => ?_⟩, fun b hb => ?_⟩, fun b hb => ?_⟩
      · exact (hbefore b hb).grow (by rw [nodes]; omega)
      · exact Binding.Small.of_naming hguard (by rw [nodes]; omega) _ b hb
      · exact (htrue b hb).mono (by rw [nodes]; omega) (by rw [nodes]; omega)
      · exact (hfalse b hb).mono (by rw [nodes]; omega) (by rw [nodes]; omega)
  call _ h hguard := (h hguard).imp Nat.succ_le_succ fun hsmall b hb => (hsmall b hb).grow (Nat.le_succ _)
  deciding _ h hguard := (h hguard).imp Nat.succ_le_succ fun hsmall b hb => (hsmall b hb).grow (Nat.le_succ _)
  noArgument _ := ⟨Nat.le_refl _, List.forall_mem_nil _⟩
  argument he hes hguard := by
    obtain ⟨hfirst, hbefore⟩ := he hguard
    obtain ⟨hrest, hafter⟩ := hes hguard
    refine ⟨Nat.add_le_add hfirst hrest, List.forall_mem_append.2 ⟨fun b hb => ?_, fun b hb => ?_⟩⟩
    · exact (hbefore b hb).grow (Nat.le_add_right _ _)
    · exact (hafter b hb).grow (Nat.le_add_left _ _)
  noOperand _ := ⟨Nat.le_refl _, List.forall_mem_nil _⟩
  operand he hes hguard := by
    obtain ⟨hfirst, hbefore⟩ := he hguard
    obtain ⟨hrest, -⟩ := hes (forall_mem_guard hguard (nodes_atom _ _) _)
    exact ⟨Nat.add_le_add hfirst hrest, fun b hb => (hbefore b hb).grow (Nat.le_add_right _ _)⟩
  namedOperand {_ guard e _ _ e' _ n₁ _ _ _} he hes _ hguard := by
    obtain ⟨hfirst, hbefore⟩ := he hguard
    obtain ⟨hrest, hafter⟩ := hes (forall_mem_guard hguard (nodes_atom _ _) _)
    have hpos := e.nodes_pos
    have hatom := nodes_atom e' n₁
    rw [List.length_append, List.length_singleton] at hafter
    constructor
    · rw [nodesList, nodesList]
      omega
    · refine List.forall_mem_append.2 ⟨List.forall_mem_append.2 ⟨fun b hb => ?_, fun b hb => ?_⟩, fun b hb => ?_⟩
      · exact (hbefore b hb).grow (Nat.le_add_right _ _)
      · exact (Binding.Small.of_naming hguard hfirst _ b hb).grow (Nat.le_add_right _ _)
      · exact (hafter b hb).mono (by rw [nodesList]; omega) (by rw [nodesList]; omega)

/-- What is lifted out of a tree is small, and so is what is left of it. -/
theorem small_lift (e : Expr) : e.LiftsSmall := fun guard count => small_rules.lift guard e count

/-! ### Names of lifted bindings -/

/-- Every name that a tree binds is one of a lifted binding. -/
def LiftsNames (e : Expr) : Prop :=
  ∀ x ∈ e.boundNames, ∀ guard count, ∃ b ∈ (lift guard e count).2.1, b.name = x

/-- A name that is bound is one of a lifted binding at every step of lifting. -/
theorem names_rules :
    LiftRules (fun _ e _ _ bs _ => ∀ x ∈ e.boundNames, ∃ b ∈ bs, b.name = x)
      (fun _ es _ _ bs _ => ∀ x ∈ boundNamesList es, ∃ b ∈ bs, b.name = x)
      (fun _ _ es _ _ bs _ => ∀ x ∈ boundNamesList es, ∃ b ∈ bs, b.name = x) := by
  have hfirst {bs cs : List Binding} {x : String} (h : ∃ b ∈ bs, b.name = x) : ∃ b ∈ bs ++ cs, b.name = x :=
    h.imp fun b hb => ⟨List.mem_append_left _ hb.1, hb.2⟩
  have hlast {bs cs : List Binding} {x : String} (h : ∃ b ∈ cs, b.name = x) : ∃ b ∈ bs ++ cs, b.name = x :=
    h.imp fun b hb => ⟨List.mem_append_right _ hb.1, hb.2⟩
  have hnone {P : Prop} {x : String} (h : ∃ b ∈ ([] : List Binding), b.name = x) : P := by
    obtain ⟨b, hb, -⟩ := h
    cases hb
  constructor
  case const | var | noArgument | noOperand => exact List.forall_mem_nil _
  case member | unary => exact fun _ h => h
  case call | deciding => exact fun _ h => h
  case binary =>
    intro _ _ _ _ _ _ _ _ _ _ _ hl hr
    exact List.forall_mem_append.2 ⟨fun x hx => hfirst (hl x hx), fun x hx => hlast (hr x hx)⟩
  case bind =>
    intro _ _ _ _ _ _ _ _ _ _ name hv hb
    refine List.forall_mem_cons.2 ⟨⟨_, List.mem_append_right _ (List.mem_cons_self ..), rfl⟩,
      List.forall_mem_append.2 ⟨fun x hx => hfirst (hv x hx), fun x hx => ?_⟩⟩
    obtain ⟨b, hmem, hx⟩ := hb x hx
    exact ⟨b, List.mem_append_right _ (List.mem_cons_of_mem _ hmem), hx⟩
  case choice =>
    intro _ _ _ _ _ _ _ _ _ _ _ _ hc hy hn
    refine List.forall_mem_append.2 ⟨List.forall_mem_append.2 ⟨hc, ?_⟩, ?_⟩
    · exact fun x hx => hnone (hy x hx)
    · exact fun x hx => hnone (hn x hx)
  case namedChoice =>
    intro _ _ _ _ _ _ _ _ _ _ _ _ _ _ hc hy hn _
    refine List.forall_mem_append.2 ⟨List.forall_mem_append.2 ⟨?_, ?_⟩, ?_⟩
    · exact fun x hx => hfirst (hfirst (hfirst (hc x hx)))
    · exact fun x hx => hfirst (hlast (hy x hx))
    · exact fun x hx => hlast (hn x hx)
  case argument =>
    intro _ _ _ _ _ _ _ _ _ _ he hes
    exact List.forall_mem_append.2 ⟨fun x hx => hfirst (he x hx), fun x hx => hlast (hes x hx)⟩
  case operand =>
    intro _ _ _ _ _ _ _ _ _ _ he hes
    exact List.forall_mem_append.2 ⟨he, fun x hx => hnone (hes x hx)⟩
  case namedOperand =>
    intro _ _ _ _ _ _ _ _ _ _ _ he hes _
    exact List.forall_mem_append.2 ⟨fun x hx => hfirst (hfirst (he x hx)), fun x hx => hlast (hes x hx)⟩

theorem names_lift (e : Expr) : e.LiftsNames := fun x hx guard count => names_rules.lift guard e count x hx

end Expr

end Barrage
