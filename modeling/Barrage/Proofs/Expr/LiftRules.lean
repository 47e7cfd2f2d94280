import Barrage.Proofs.Expr.Lifting

/-!
# What lifting passes on

Whatever is proved of lifting goes by the same steps: a node is lifted after its parts, a condition is named
only if something behind it needs it, and of operands the conditions pile up from one to the next. `LiftRules`
asks of a property only that it passes through each of these steps, given what was lifted and what was left. It
never speaks of how operands are settled: an operand is named exactly if anything is lifted out of those behind
it.

## Main definitions

* `Expr.LiftRules` — properties of lifting that pass through every step

## Main results

* `Expr.LiftRules.lift` — they hold of every tree
* `Expr.lift_of_lets` — a tree without bindings is left as it is
-/

namespace Barrage.Expr

/-- Properties of what lifting makes of a tree, of arguments and of operands, that pass through every step: what
they relate are the conditions that lead there, the tree and the count before, and what is left of the tree, the
bindings that were lifted and the count afterwards. -/
structure LiftRules (tree : List Expr → Expr → Nat → Expr → List Binding → Nat → Prop)
    (arguments : List Expr → List Expr → Nat → List Expr → List Binding → Nat → Prop)
    (operands : Bool → List Expr → List Expr → Nat → List Expr → List Binding → Nat → Prop) : Prop where
  const {guard value n} : tree guard (.const value) n (.const value) [] n
  var {guard name n} : tree guard (.var name) n (.var name) [] n
  member {guard inner n inner' bs n'} (field : Member) (h : tree guard inner n inner' bs n') :
    tree guard (.member inner field) n (.member inner' field) bs n'
  unary {guard inner n inner' bs n'} (op : UnOp) (h : tree guard inner n inner' bs n') :
    tree guard (.unary op inner) n (.unary op inner') bs n'
  binary {guard left right n left' bs n₁ right' cs n₂} (op : BinOp) (hl : tree guard left n left' bs n₁)
    (hr : tree guard right n₁ right' cs n₂) :
    tree guard (.binary op left right) n (.binary op left' right') (bs ++ cs) n₂
  bind {guard value body n value' bs n₁ body' cs n₂} (name : String) (hv : tree guard value n value' bs n₁)
    (hb : tree guard body n₁ body' cs n₂) :
    tree guard (.bind name value body) n body' (bs ++ guarded guard name value' :: cs) n₂
  /-- A choice of which neither side has bindings. -/
  choice {guard cond yes no n cond' bs n₁ yes' n₂ no' n₃} (hc : tree guard cond n cond' bs n₁)
    (hy : tree (guard ++ [(atom cond' n₁).1]) yes (atom cond' n₁).2.2 yes' [] n₂)
    (hn : tree (guard ++ [negation (atom cond' n₁).1]) no n₂ no' [] n₃) :
    tree guard (.branch cond yes no) n (.branch cond' yes' no') bs n₃
  /-- A choice of which one side has bindings. -/
  namedChoice {guard cond yes no n cond' bs n₁ yes' cs n₂ no' ds n₃} (hc : tree guard cond n cond' bs n₁)
    (hy : tree (guard ++ [(atom cond' n₁).1]) yes (atom cond' n₁).2.2 yes' cs n₂)
    (hn : tree (guard ++ [negation (atom cond' n₁).1]) no n₂ no' ds n₃) (hsome : cs ++ ds ≠ []) :
    tree guard (.branch cond yes no) n (.branch (atom cond' n₁).1 yes' no')
      (bs ++ naming guard cond' (atom cond' n₁).2.1 ++ cs ++ ds) n₃
  call {guard func args n args' bs n'} (hfunc : shortCircuit? func = none)
    (h : arguments guard args n args' bs n') : tree guard (.call func args) n (.call func args') bs n'
  deciding {guard func short args n args' bs n'} (hfunc : shortCircuit? func = some short)
    (h : operands short guard args n args' bs n') : tree guard (.call func args) n (.call func args') bs n'
  noArgument {guard n} : arguments guard [] n [] [] n
  argument {guard e es n e' bs n₁ es' cs n₂} (he : tree guard e n e' bs n₁)
    (hes : arguments guard es n₁ es' cs n₂) : arguments guard (e :: es) n (e' :: es') (bs ++ cs) n₂
  noOperand {short guard n} : operands short guard [] n [] [] n
  /-- An operand before others that have no bindings. -/
  operand {short guard e es n e' bs n₁ es' n₂} (he : tree guard e n e' bs n₁)
    (hes : operands short (guard ++ [if short then negation (atom e' n₁).1 else (atom e' n₁).1]) es
      (atom e' n₁).2.2 es' [] n₂) : operands short guard (e :: es) n (e' :: es') bs n₂
  /-- An operand before others of which some have bindings. -/
  namedOperand {short guard e es n e' bs n₁ es' cs n₂} (he : tree guard e n e' bs n₁)
    (hes : operands short (guard ++ [if short then negation (atom e' n₁).1 else (atom e' n₁).1]) es
      (atom e' n₁).2.2 es' cs n₂) (hsome : cs ≠ []) :
    operands short guard (e :: es) n ((atom e' n₁).1 :: es')
      (bs ++ naming guard e' (atom e' n₁).2.1 ++ cs) n₂

/-- An operand is named if anything is lifted out of those behind it. -/
theorem Operand.any_lifted_iff {os : List Operand} :
    (os.any fun o => !o.lifted.isEmpty) = true ↔ (settle os).1 ≠ [] := by
  constructor
  · intro hany hnil
    obtain ⟨o, ho, hsome⟩ := List.any_eq_true.1 hany
    rw [forall_eq_nil_of_settle hnil o ho] at hsome
    cases hsome
  · intro hne
    by_contra hnone
    have hnil : ∀ o ∈ os, o.lifted = [] := by simpa using hnone
    exact hne (by rw [settle_of_forall_eq_nil hnil])

namespace LiftRules

variable {tree : List Expr → Expr → Nat → Expr → List Binding → Nat → Prop}
  {arguments : List Expr → List Expr → Nat → List Expr → List Binding → Nat → Prop}
  {operands : Bool → List Expr → List Expr → Nat → List Expr → List Binding → Nat → Prop}
  (h : LiftRules tree arguments operands)

include h

theorem liftList {args : List Expr}
    (ih : ∀ e ∈ args, ∀ guard n, tree guard e n (lift guard e n).1 (lift guard e n).2.1 (lift guard e n).2.2)
    (guard : List Expr) (n : Nat) :
    arguments guard args n (liftList guard args n).1 (liftList guard args n).2.1
      (liftList guard args n).2.2 := by
  induction args generalizing n with
  | nil => exact h.noArgument
  | cons e es ihes =>
    obtain ⟨he, hes⟩ := List.forall_mem_cons.1 ih
    exact h.argument (he guard n) (ihes hes _)

theorem settle {args : List Expr}
    (ih : ∀ e ∈ args, ∀ guard n, tree guard e n (lift guard e n).1 (lift guard e n).2.1 (lift guard e n).2.2)
    (short : Bool) (guard : List Expr) (n : Nat) :
    operands short guard args n (Operand.settle (liftOperands short guard args n).1).2
      (Operand.settle (liftOperands short guard args n).1).1 (liftOperands short guard args n).2 := by
  induction args generalizing guard n with
  | nil => exact h.noOperand
  | cons e es ihes =>
    obtain ⟨he, hes⟩ := List.forall_mem_cons.1 ih
    have hfirst := he guard n
    obtain ⟨e', bs, n₁, hlift⟩ : ∃ a b c, Expr.lift guard e n = (a, b, c) := ⟨_, _, _, rfl⟩
    obtain ⟨test, name, n₂, hatom⟩ : ∃ a b c, atom e' n₁ = (a, b, c) := ⟨_, _, _, rfl⟩
    obtain ⟨goesOn, hgoesOn⟩ : ∃ c, c = if short then negation test else test := ⟨_, rfl⟩
    have hrest := ihes hes (guard ++ [goesOn]) n₂
    obtain ⟨rest, n₃, hoperands⟩ : ∃ a b, liftOperands short (guard ++ [goesOn]) es n₂ = (a, b) :=
      ⟨_, _, rfl⟩
    have hplain := @h.operand short guard e es n e' bs n₁
    have hnamed := @h.namedOperand short guard e es n e' bs n₁
    rw [hlift] at hfirst
    rw [hoperands] at hrest
    rw [hatom, ← hgoesOn] at hplain hnamed
    simp only [liftOperands, hlift, hatom, ← hgoesOn, hoperands]
    -- Whether the operand is named hangs on the operands behind it, which are lifted with its name in any case.
    by_cases hany : (rest.any fun later => !later.lifted.isEmpty) = true
    · rw [Operand.settle_cons_of_any hany]
      exact hnamed hfirst hrest (Operand.any_lifted_iff.1 hany)
    · have hnil : ∀ o ∈ rest, o.lifted = [] :=
        Operand.forall_eq_nil_of_settle (not_not.1 fun hne => hany (Operand.any_lifted_iff.2 hne))
      rw [Operand.settle_of_forall_eq_nil hnil] at hrest
      rw [Operand.settle_cons_of_forall_eq_nil hnil]
      exact hplain hfirst hrest

/-- A property that passes through every step of lifting holds of what lifting makes of a tree. -/
theorem lift (guard : List Expr) (e : Expr) (n : Nat) :
    tree guard e n (lift guard e n).1 (lift guard e n).2.1 (lift guard e n).2.2 := by
  induction e using treeInduction generalizing guard n with
  | const value => exact h.const
  | var name => exact h.var
  | member inner field ih => exact h.member field (ih guard n)
  | unary op inner ih => exact h.unary op (ih guard n)
  | binary op left right ihl ihr => exact h.binary op (ihl guard n) (ihr guard _)
  | bind name value body ihv ihb => exact h.bind name (ihv guard n) (ihb guard _)
  | branch cond yes no ihc ihy ihn =>
    have hc := ihc guard n
    have hy := ihy (guard ++ [(atom (Expr.lift guard cond n).1 (Expr.lift guard cond n).2.2).1])
      (atom (Expr.lift guard cond n).1 (Expr.lift guard cond n).2.2).2.2
    have hn := ihn (guard ++ [negation (atom (Expr.lift guard cond n).1 (Expr.lift guard cond n).2.2).1])
      (Expr.lift (guard ++ [(atom (Expr.lift guard cond n).1 (Expr.lift guard cond n).2.2).1]) yes
        (atom (Expr.lift guard cond n).1 (Expr.lift guard cond n).2.2).2.2).2.2
    simp only [Expr.lift]
    split
    · rename_i hempty
      rw [Bool.and_eq_true, List.isEmpty_iff, List.isEmpty_iff] at hempty
      rw [hempty.1] at hy
      rw [hempty.2] at hn
      exact h.choice hc hy hn
    · rename_i hsome
      refine h.namedChoice hc hy hn fun hnil => hsome ?_
      obtain ⟨hyes, hno⟩ := List.append_eq_nil_iff.1 hnil
      rw [hyes, hno]
      rfl
  | call func args ih =>
    unfold Expr.lift
    split
    · rename_i short hshort
      exact h.deciding hshort (h.settle ih short guard n)
    · rename_i hshort
      exact h.call hshort (h.liftList ih guard n)

end LiftRules

/-- Nothing is lifted out of a tree without bindings, which is left as it is. -/
theorem lift_of_lets (guard : List Expr) {e : Expr} (n : Nat) (h : e.lets = 0) :
    (lift guard e n).1 = e ∧ (lift guard e n).2.1 = [] := by
  have hrules : LiftRules (fun _ e _ _ bs _ => e.lets = 0 → bs = [])
      (fun _ es _ _ bs _ => letsList es = 0 → bs = [])
      (fun _ _ es _ _ bs _ => letsList es = 0 → bs = []) := by
    constructor
    case const | var | noArgument | noOperand => exact fun _ => rfl
    case member | unary => exact fun _ h => h
    case call | deciding => exact fun _ h => h
    case binary | argument =>
      intros
      rename_i hfirst hrest hlets
      obtain ⟨hl, hr⟩ := Nat.add_eq_zero_iff.1 hlets
      exact List.append_eq_nil_iff.2 ⟨hfirst hl, hrest hr⟩
    case bind =>
      intros
      rename_i hlets
      rw [lets] at hlets
      omega
    case choice =>
      intro _ _ _ _ _ _ _ _ _ _ _ _ hc _ _ hlets
      exact hc (Nat.add_eq_zero_iff.1 (Nat.add_eq_zero_iff.1 hlets).1).1
    case namedChoice =>
      intro _ _ _ _ _ _ _ _ _ _ _ _ _ _ _ hy hn hsome hlets
      obtain ⟨hcy, hlets⟩ := Nat.add_eq_zero_iff.1 hlets
      exact absurd (List.append_eq_nil_iff.2 ⟨hy (Nat.add_eq_zero_iff.1 hcy).2, hn hlets⟩) hsome
    case operand =>
      intro _ _ _ _ _ _ _ _ _ _ he _ hlets
      exact he (Nat.add_eq_zero_iff.1 hlets).1
    case namedOperand =>
      intro _ _ _ _ _ _ _ _ _ _ _ _ hes hsome hlets
      exact absurd (hes (Nat.add_eq_zero_iff.1 hlets).2) hsome
  have hnil := hrules.lift guard e n h
  exact ⟨(lift_of_eq_nil hnil).1, hnil⟩

end Barrage.Expr
