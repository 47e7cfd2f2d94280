import Mathlib.Tactic.Linarith
import Mathlib.Tactic.Ring
import Barrage.Proofs.Expr.LiftRules
import Barrage.Proofs.Expr.Sizes

/-!
# Sizes of linear forms

Values and result of a linear form come to no more than twice the nodes of the tree: a condition that is named
stands once as the value of its name, and its name once in its place. But each binding repeats all conditions that
lead to it. A tree with more and more bindings under more and more conditions therefore has a linear form that
grows with the square of the tree, and no constant bounds it. It is bounded by the number of conditions that lead
to any one place of the tree, a number below that of its nodes.

## Main definitions

* `Binding.nodes`, `Linear.nodes` — the number of nodes of conditions and values, and of a linear form
* `Expr.conditions` — the greatest number of conditions that lead to a place of a tree
* `Expr.tower` — bindings under more and more conditions

## Main results

* `Expr.nodes_linearize_le` — the size of a linear form
* `Expr.nodes_linearize_tower` — no constant times the size of the tree bounds it
-/

namespace Barrage

open Barrage.Expr

/-- The number of nodes of the condition of a binding. -/
def Binding.guardNodes (b : Binding) : Nat := (b.guard.map Expr.nodes).getD 0

/-- The number of nodes of the condition and the value of a binding. -/
def Binding.nodes (b : Binding) : Nat := b.guardNodes + b.value.nodes

namespace Linear

/-- The number of nodes of bindings, by what is counted of each. -/
def total (count : Binding → Nat) : List Binding → Nat
  | [] => 0
  | b :: bs => count b + total count bs

/-- The number of nodes of a linear form: of all conditions, all values and the result. -/
def nodes (l : Linear) : Nat := total Binding.nodes l.bindings + l.result.nodes

variable {count count' : Binding → Nat} {bs cs : List Binding}

@[simp] theorem total_nil : total count [] = 0 := rfl

@[simp] theorem total_cons (b : Binding) : total count (b :: bs) = count b + total count bs := rfl

@[simp] theorem total_append : total count (bs ++ cs) = total count bs + total count cs := by
  induction bs with
  | nil => exact (Nat.zero_add _).symm
  | cons b bs ih => rw [List.cons_append, total_cons, total_cons, ih, Nat.add_assoc]

theorem total_add (bs : List Binding) :
    total (fun b => count b + count' b) bs = total count bs + total count' bs := by
  induction bs with
  | nil => rfl
  | cons b bs ih =>
    rw [total_cons, total_cons, total_cons, ih]
    omega

theorem total_le {bound : Nat} (h : ∀ b ∈ bs, count b ≤ bound) : total count bs ≤ bs.length * bound := by
  induction bs with
  | nil => exact Nat.zero_le _
  | cons b bs ih =>
    obtain ⟨hb, hbs⟩ := List.forall_mem_cons.1 h
    rw [total_cons, List.length_cons, Nat.succ_mul, Nat.add_comm]
    exact Nat.add_le_add (ih hbs) hb

end Linear

open Linear

namespace Expr

mutual

/-- The greatest number of conditions that lead to a place of a tree: the conditions of choices, and the operands
before it in conjunctions and disjunctions. -/
def conditions : Expr → Nat
  | const _ | var _ => 0
  | member inner _ | unary _ inner => inner.conditions
  | binary _ left right => max left.conditions right.conditions
  | call func args => if (shortCircuit? func).isSome then conditionsOperands args else conditionsList args
  | branch cond yes no => max (max cond.conditions (yes.conditions + 1)) (no.conditions + 1)
  | bind _ value body => max value.conditions body.conditions

/-- The same for a list of trees. -/
def conditionsList : List Expr → Nat
  | [] => 0
  | e :: es => max e.conditions (conditionsList es)

/-- The same for operands, of which each is a condition for those after it. -/
def conditionsOperands : List Expr → Nat
  | [] => 0
  | e :: es => max e.conditions (conditionsOperands es + 1)

end

/-- There are fewer conditions than nodes. -/
theorem conditions_lt_nodes (e : Expr) : e.conditions < e.nodes := by
  induction e using treeInduction with
  | const | var => exact Nat.one_pos
  | member inner field ih => exact Nat.lt_succ_of_lt ih
  | unary op inner ih => exact Nat.lt_succ_of_lt ih
  | binary op left right ihl ihr =>
    rw [conditions, nodes]
    omega
  | branch cond yes no ihc ihy ihn =>
    rw [conditions, nodes]
    omega
  | bind name value body ihv ihb =>
    rw [conditions, nodes]
    omega
  | call func args ih =>
    suffices hargs : conditionsOperands args ≤ nodesList args ∧ conditionsList args ≤ nodesList args by
      rw [conditions, nodes]
      split <;> omega
    induction args with
    | nil => exact ⟨Nat.le_refl _, Nat.le_refl _⟩
    | cons e es ihes =>
      have he := ih e (by simp)
      have hes := ihes fun e he => ih e (by simp [he])
      rw [conditionsOperands, conditionsList, nodesList]
      omega

/-- Renaming keeps the conditions of a tree. -/
theorem conditions_rename (names : List (String × String)) (e : Expr) (count : Nat) :
    (rename names e count).1.conditions = e.conditions := by
  induction e using treeInduction generalizing names count with
  | const | var => rfl
  | member inner field ih => exact ih names count
  | unary op inner ih => exact ih names count
  | binary op left right ihl ihr => exact congrArg₂ max (ihl names count) (ihr names _)
  | branch cond yes no ihc ihy ihn =>
    exact congrArg₂ max (congrArg₂ max (ihc names count) (congrArg (· + 1) (ihy names _)))
      (congrArg (· + 1) (ihn names _))
  | bind name value body ihv ihb => exact congrArg₂ max (ihv names count) (ihb _ _)
  | call func args ih =>
    suffices hargs : conditionsOperands (renameList names args count).1 = conditionsOperands args ∧
        conditionsList (renameList names args count).1 = conditionsList args by
      rw [rename, conditions, conditions, hargs.1, hargs.2]
    induction args generalizing count with
    | nil => exact ⟨rfl, rfl⟩
    | cons e es ihes =>
      have he := ih e (by simp) names count
      have hes := ihes (fun e he => ih e (by simp [he])) (rename names e count).2
      exact ⟨congrArg₂ max he (congrArg (· + 1) hes.1), congrArg₂ max he hes.2⟩

/-! ### What is lifted out of a tree -/

/-- What is lifted out of a part with some nodes, to whose places no more than some conditions lead from those of
`guard`: how many bindings it is, how large their values are together with what is left, and how large each
condition is. The slack is what further nodes of the part allow for. -/
structure Lifted (slack nodes conditions : Nat) (guard : List Expr) (left : Nat) (bs : List Binding) : Prop where
  length : bs.length + slack ≤ nodes
  values : left + total (fun b => b.value.nodes) bs + slack ≤ 2 * nodes
  guards : ∀ b ∈ bs, b.guardNodes ≤ 2 * (guard.length + conditions) + 1

variable {guard : List Expr}

theorem nodes_conjunction_le (hguard : ∀ g ∈ guard, g.nodes ≤ 2) :
    ((conjunction guard).map nodes).getD 0 ≤ 2 * guard.length + 1 := by
  have hlist : nodesList guard ≤ 2 * guard.length := by
    induction guard with
    | nil => exact Nat.le_refl _
    | cons g gs ih =>
      obtain ⟨hg, hgs⟩ := List.forall_mem_cons.1 hguard
      have := ih hgs
      rw [nodesList, List.length_cons]
      omega
  rcases guard with _ | ⟨g, _ | ⟨g', gs⟩⟩
  · exact Nat.zero_le _
  · exact Nat.le_succ_of_le (hguard g (by simp))
  · exact Nat.succ_le_succ hlist

namespace Lifted

variable {slack slack' nodes nodes' conditions conditions' left left' : Nat} {bs cs : List Binding} {value g : Expr}

/-- Nothing is lifted out of a leaf. -/
theorem leaf (guard : List Expr) : Lifted 1 1 0 guard 1 [] :=
  ⟨Nat.le_refl _, Nat.le_refl _, List.forall_mem_nil _⟩

theorem mono (h : Lifted slack nodes conditions guard left bs) (hslack : slack' ≤ slack)
    (hnodes : nodes ≤ nodes') : Lifted slack' nodes' conditions guard left bs where
  length := by
    have := h.length
    omega
  values := by
    have := h.values
    omega
  guards := h.guards

theorem append (h : Lifted slack nodes conditions guard left bs)
    (h' : Lifted slack' nodes' conditions' guard left' cs) :
    Lifted (slack + slack') (nodes + nodes') (max conditions conditions') guard (left + left') (bs ++ cs) where
  length := by
    have hlengths := Nat.add_le_add h.length h'.length
    rw [List.length_append]
    omega
  values := by
    have hvalues := Nat.add_le_add h.values h'.values
    rw [total_append]
    omega
  guards := by
    refine List.forall_mem_append.2 ⟨fun b hb => ?_, fun b hb => ?_⟩
    · exact Nat.le_trans (h.guards b hb) (by omega)
    · exact Nat.le_trans (h'.guards b hb) (by omega)

/-- A node above parts that are lifted out of. -/
theorem node (h : Lifted slack nodes conditions guard left bs) :
    Lifted 1 (nodes + 1) conditions guard (left + 1) bs where
  length := by
    have := h.length
    omega
  values := by
    have := h.values
    omega
  guards := h.guards

/-- A condition that leads to a part counts for the part. -/
theorem under (h : Lifted slack nodes conditions (guard ++ [g]) left bs) :
    Lifted slack nodes (conditions + 1) guard left bs where
  length := h.length
  values := h.values
  guards b hb := by
    have := h.guards b hb
    rw [List.length_append, List.length_singleton] at this
    omega

/-- What is left of a part becomes the value of a binding, of which one node may be left. -/
theorem give (h : Lifted 1 nodes conditions guard value.nodes bs) (hguard : ∀ g ∈ guard, g.nodes ≤ 2)
    (name : String) (hleft : left ≤ 1) :
    Lifted 0 nodes conditions guard left (bs ++ [guarded guard name value]) where
  length := by
    rw [List.length_append]
    exact h.length
  values := by
    have hvalues := h.values
    rw [total_append, total_cons, total_nil]
    simp only [guarded]
    -- The slack is the node that is left.
    omega
  guards := by
    refine List.forall_mem_append.2 ⟨h.guards, List.forall_mem_singleton.2 ?_⟩
    exact Nat.le_trans (nodes_conjunction_le hguard) (by omega)

/-- What is left of a part is named, if it needs a name, and repeated in one node. -/
theorem named (h : Lifted 1 nodes conditions guard value.nodes bs) (hguard : ∀ g ∈ guard, g.nodes ≤ 2)
    (count : Nat) :
    Lifted 0 nodes conditions guard (atom value count).1.nodes (bs ++ naming guard value (atom value count).2.1) := by
  rw [nodes_atom]
  cases value with
  | const | var =>
    change Lifted 0 nodes conditions guard 1 (bs ++ [])
    rw [List.append_nil]
    exact h.mono (Nat.zero_le _) (Nat.le_refl _)
  | _ => exact h.give hguard _ (Nat.le_refl _)

end Lifted

/-- Lifting is small at every step, as long as no condition that leads to a part has more than two nodes. -/
theorem lifted_rules :
    LiftRules
      (fun guard e _ e' bs _ => (∀ g ∈ guard, g.nodes ≤ 2) → Lifted 1 e.nodes e.conditions guard e'.nodes bs)
      (fun guard es _ es' bs _ =>
        (∀ g ∈ guard, g.nodes ≤ 2) → Lifted 0 (nodesList es) (conditionsList es) guard (nodesList es') bs)
      (fun _ guard es _ es' bs _ =>
        (∀ g ∈ guard, g.nodes ≤ 2) →
          Lifted 0 (nodesList es) (conditionsOperands es) guard (nodesList es') bs) where
  const _ := .leaf _
  var _ := .leaf _
  member _ h hguard := (h hguard).node
  unary _ h hguard := (h hguard).node
  binary _ hl hr hguard := ((hl hguard).append (hr hguard)).node
  bind name hv hb hguard := by
    have hall := ((hv hguard).give hguard name (Nat.zero_le _)).append (hb hguard)
    rw [Nat.zero_add, Nat.zero_add, List.append_assoc] at hall
    exact hall.mono (Nat.le_refl _) (Nat.le_succ _)
  choice hc hy hn hguard := by
    have hyes := (hy (forall_mem_guard hguard (nodes_atom _ _) false)).under
    have hno := (hn (forall_mem_guard hguard (nodes_atom _ _) true)).under
    have hall := (((hc hguard).append hyes).append hno).node
    rwa [List.append_nil, List.append_nil] at hall
  namedChoice hc hy hn _ hguard := by
    have hyes := (hy (forall_mem_guard hguard (nodes_atom _ _) false)).under
    have hno := (hn (forall_mem_guard hguard (nodes_atom _ _) true)).under
    exact ((((hc hguard).named hguard _).append hyes).append hno).node
  call hfunc h hguard := by
    rw [conditions, hfunc]
    exact (h hguard).node
  deciding hfunc h hguard := by
    rw [conditions, hfunc]
    exact (h hguard).node
  noArgument _ := ⟨Nat.le_refl _, Nat.le_refl _, List.forall_mem_nil _⟩
  argument he hes hguard := ((he hguard).append (hes hguard)).mono (Nat.zero_le _) (Nat.le_refl _)
  noOperand _ := ⟨Nat.le_refl _, Nat.le_refl _, List.forall_mem_nil _⟩
  operand he hes hguard := by
    have hrest := (hes (forall_mem_guard hguard (nodes_atom _ _) _)).under
    have hall := (he hguard).append hrest
    rw [List.append_nil] at hall
    exact hall.mono (Nat.zero_le _) (Nat.le_refl _)
  namedOperand he hes _ hguard := by
    have hrest := (hes (forall_mem_guard hguard (nodes_atom _ _) _)).under
    exact ((he hguard).named hguard _).append hrest

/-- The linear form of a tree is at most as many times as large as the tree as the conditions that lead to any one
place of the tree tell; these are fewer than its nodes. So it grows with the tree as long as the number of
conditions is bounded, and with the square of the tree at most. -/
theorem nodes_linearize_le (e : Expr) (hoisted : List Hoisted) :
    (e.linearize hoisted).nodes ≤ (2 * e.conditions + 3) * e.nodes ∧ e.conditions < e.nodes := by
  refine ⟨?_, conditions_lt_nodes e⟩
  have hlifted := lifted_rules.lift [] (rename [] e 0).1 0 (List.forall_mem_nil _)
  rw [nodes_rename, conditions_rename] at hlifted
  obtain ⟨hlength, hvalues, hguards⟩ := hlifted
  have hconditions : total Binding.guardNodes (e.linearize hoisted).bindings ≤ e.nodes * (2 * e.conditions + 1) := by
    rw [List.length_nil, Nat.zero_add] at hguards
    exact Nat.le_trans (total_le hguards) (Nat.mul_le_mul_right _ (Nat.le_of_succ_le hlength))
  have hsum : (e.linearize hoisted).nodes ≤
      total Binding.guardNodes (e.linearize hoisted).bindings + 2 * e.nodes := by
    have hparts : total Binding.nodes (e.linearize hoisted).bindings =
        total Binding.guardNodes (e.linearize hoisted).bindings +
          total (fun b => b.value.nodes) (e.linearize hoisted).bindings := total_add _
    rw [Linear.nodes, hparts]
    change _ + total _ (lift [] (rename [] e 0).1 0).2.1 + (lift [] (rename [] e 0).1 0).1.nodes ≤ _
    omega
  calc (e.linearize hoisted).nodes
      ≤ e.nodes * (2 * e.conditions + 1) + 2 * e.nodes := by omega
    _ = (2 * e.conditions + 3) * e.nodes := by ring

/-! ### A tree whose linear form is large -/

/-- Bindings each of which stands below one condition more than the one before it. -/
def tower : Nat → Expr
  | 0 => const (.int 0)
  | n + 1 => branch (var "c") (bind "x" (const (.int 1)) (tower n)) (const (.int 0))

theorem nodes_tower (n : Nat) : (tower n).nodes = 5 * n + 1 := by
  induction n with
  | zero => rfl
  | succ n ih =>
    simp only [tower, nodes, ih]
    omega

theorem length_le_nodesList (es : List Expr) : es.length ≤ nodesList es := by
  induction es with
  | nil => exact Nat.le_refl _
  | cons e es ih =>
    have := e.nodes_pos
    rw [List.length_cons, nodesList]
    omega

/-- A binding below conditions repeats all of them. -/
theorem length_le_guardNodes (guard : List Expr) (name : String) (value : Expr) :
    guard.length ≤ (guarded guard name value).guardNodes := by
  rcases guard with _ | ⟨g, _ | ⟨g', gs⟩⟩
  · exact Nat.le_refl _
  · exact g.nodes_pos
  · exact Nat.le_succ_of_le (length_le_nodesList (g :: g' :: gs))

/-- The bindings of a tower repeat one condition more from each to the next. -/
theorem le_total_lift_tower (names : List (String × String)) (guard : List Expr) (n lets guards : Nat) :
    n * (2 * guard.length + n + 1) ≤
      2 * total Binding.nodes (lift guard (rename names (tower n) lets).1 guards).2.1 := by
  -- Below the first condition the rest is a tower under one condition more, so the conditions vary.
  induction n generalizing names guard lets guards with
  | zero => omega
  | succ n ih =>
    obtain ⟨test, htest⟩ : ∃ test, test = (names.lookup "c").getD "c" := ⟨_, rfl⟩
    have hrest := ih (("x", letName "x" lets) :: names) (guard ++ [var test]) (lets + 1) guards
    have hfirst := length_le_guardNodes (guard ++ [var test]) (letName "x" lets) (const (.int 1))
    rw [List.length_append, List.length_singleton] at hrest hfirst
    have hstep : (lift guard (rename names (tower (n + 1)) lets).1 guards).2.1 =
        guarded (guard ++ [var test]) (letName "x" lets) (const (.int 1)) ::
          (lift (guard ++ [var test]) (rename (("x", letName "x" lets) :: names) (tower n) (lets + 1)).1
            guards).2.1 := by
      simp [tower, rename, lift, atom, htest, letName]
    rw [hstep, total_cons, Binding.nodes]
    nlinarith

/-- No constant times the size of a tree bounds the size of its linear form. -/
theorem nodes_linearize_tower : ¬ ∃ C, ∀ e hoisted, (linearize e hoisted).nodes ≤ C * e.nodes := by
  rintro ⟨C, h⟩
  have hle := h (tower (10 * C + 2)) []
  have hlarge := le_total_lift_tower [] [] (10 * C + 2) 0 0
  rw [nodes_tower, Linear.nodes] at hle
  change total Binding.nodes (lift [] (rename [] (tower (10 * C + 2)) 0).1 0).2.1 + _ ≤ _ at hle
  rw [List.length_nil] at hlarge
  nlinarith

end Expr

end Barrage
