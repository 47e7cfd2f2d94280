import Barrage.Proofs.Expr.Realizing

/-!
# Lifting bindings out of a tree

Lifting moves the bindings of a tree to the front, past everything that was to be evaluated before them.
The invariant that carries the proof has two sides. Where the conditions that lead to a tree hold,
running its bindings and evaluating what is left of it comes to the tree. Where they do not hold, every
binding of the tree is left out, because its own condition begins with those conditions, and a
conjunction is decided by the first operand that is false; the names behind that one, which may stand
for nothing, are never read.

A tree out of which nothing is lifted stays as it is. That matters for conditions: a condition gets a
name only if a binding needs it, and where it gets none, nothing behind it has changed.

## Main definitions

* `Expr.Under` — bindings that are made under some conditions, with names that are free
* `Expr.Ready` — where the bindings of a tree can be run
* `Expr.Lifts` — what lifting does to a tree

## Main results

* `Expr.under_lift` — all bindings of a tree are under the conditions that lead to it
* `Expr.lift_of_eq_nil` — lifting nothing leaves a tree as it is
* `Expr.realizes_settle` — operands of which the first may decide
* `Expr.lift_realizes` — the bindings and the rest of a tree come to the tree
-/

namespace Barrage.Expr

variable {order : FloatOrder} {hosts : Hosts} {env renv : Env}

/-! ### The shape of lifted bindings -/

theorem le_liftList {args : List Expr} {guard : List Expr} {guards : Nat}
    (h : ∀ e ∈ args, ∀ guard guards, guards ≤ (lift guard e guards).2.2) :
    guards ≤ (liftList guard args guards).2.2 := by
  induction args generalizing guards with
  | nil => exact Nat.le_refl _
  | cons e es ih =>
    rw [List.forall_mem_cons] at h
    exact Nat.le_trans (h.1 guard guards) (ih h.2)

theorem le_atom (e : Expr) (guards : Nat) : guards ≤ (atom e guards).2.2 := by
  unfold atom
  split <;> simp

theorem le_liftOperands {args : List Expr}
    (h : ∀ e ∈ args, ∀ guard guards, guards ≤ (lift guard e guards).2.2) (short : Bool)
    (guard : List Expr) (guards : Nat) :
    guards ≤ (liftOperands short guard args guards).2 := by
  induction args generalizing guards guard with
  | nil => exact Nat.le_refl _
  | cons e es ih =>
    rw [List.forall_mem_cons] at h
    exact Nat.le_trans (h.1 guard guards) (Nat.le_trans (le_atom _ _) (ih h.2 _ _))

/-- Lifting only counts up. -/
theorem le_lift (guard : List Expr) (e : Expr) (guards : Nat) : guards ≤ (lift guard e guards).2.2 := by
  induction e using treeInduction generalizing guard guards with
  | const | var => exact Nat.le_refl _
  | member inner field ih => exact ih guard guards
  | unary op inner ih => exact ih guard guards
  | binary op left right ihl ihr => exact Nat.le_trans (ihl guard guards) (ihr guard _)
  | bind name value body ihv ihb => exact Nat.le_trans (ihv guard guards) (ihb guard _)
  | branch cond yes no ihc ihy ihn =>
    have hcond := Nat.le_trans (ihc guard guards) (le_atom (lift guard cond guards).1 _)
    simp only [lift]
    split
    · exact Nat.le_trans hcond (Nat.le_trans (ihy _ _) (ihn _ _))
    · exact Nat.le_trans hcond (Nat.le_trans (ihy _ _) (ihn _ _))
  | call func args ih =>
    have hargs : ∀ e ∈ args, ∀ guard guards, guards ≤ (lift guard e guards).2.2 :=
      fun e he guard guards => ih e he guard guards
    unfold lift
    split
    · exact le_liftOperands hargs _ _ _
    · exact le_liftList hargs

/-- A binding that is made under some conditions: its own condition begins with them, and its name is
still free. -/
def Under (guard : List Expr) (lets guards : Nat) (b : Binding) : Prop :=
  ∃ more name value, b = guarded (guard ++ more) name value ∧
    ((∃ source number, lets ≤ number ∧ name = letName source number) ∨
      ∃ number, guards ≤ number ∧ name = guardName number)

theorem Under.mono {guard more : List Expr} {lets lets' guards guards' : Nat} {b : Binding}
    (h : Under (guard ++ more) lets' guards' b) (hl : lets ≤ lets') (hg : guards ≤ guards') :
    Under guard lets guards b := by
  obtain ⟨more', name, value, rfl, hname⟩ := h
  refine ⟨more ++ more', name, value, by rw [List.append_assoc], ?_⟩
  rcases hname with ⟨source, number, hle, rfl⟩ | ⟨number, hle, rfl⟩
  · exact .inl ⟨source, number, by omega, rfl⟩
  · exact .inr ⟨number, by omega, rfl⟩

theorem Under.mono_self {guard : List Expr} {lets lets' guards guards' : Nat} {b : Binding}
    (h : Under guard lets' guards' b) (hl : lets ≤ lets') (hg : guards ≤ guards') :
    Under guard lets guards b :=
  (by rwa [List.append_nil] : Under (guard ++ []) lets' guards' b).mono hl hg

/-- The binding that gives a condition its name, if it needs one. -/
def naming (guard : List Expr) (value : Expr) : Option String → List Binding
  | some name => [guarded guard name value]
  | none => []

theorem under_naming {guard : List Expr} {value : Expr} {lets guards : Nat} :
    ∀ b ∈ naming guard value (atom value guards).2.1, Under guard lets guards b := by
  have hone : ∀ b ∈ [guarded guard (guardName guards) value], Under guard lets guards b := by
    rw [List.forall_mem_singleton]
    exact ⟨[], guardName guards, value, by rw [List.append_nil], .inr ⟨guards, Nat.le_refl _, rfl⟩⟩
  cases value with
  | const | var => exact fun b hb => nomatch hb
  | _ => exact hone

theorem under_liftList {args : List Expr} {guard : List Expr} {lets guards : Nat}
    (h : ∀ e ∈ args, ∀ guard lets guards, e.Numbered lets →
      ∀ b ∈ (lift guard e guards).2.1, Under guard lets guards b)
    (hnum : NumberedList lets args) :
    ∀ b ∈ (liftList guard args guards).2.1, Under guard lets guards b := by
  induction args generalizing lets guards with
  | nil => exact fun b hb => nomatch hb
  | cons e es ih =>
    rw [List.forall_mem_cons] at h
    refine List.forall_mem_append.2 ⟨h.1 guard lets guards hnum.1, fun b hb => ?_⟩
    exact (ih h.2 hnum.2 b hb).mono_self (by omega) (le_lift guard e guards)

/-- Where the bindings of operands come from. -/
theorem Operand.forall_mem_settle_cons {o : Operand} {rest : List Operand} {p : Binding → Prop}
    (hlifted : ∀ b ∈ o.lifted, p b) (hnaming : ∀ b ∈ o.naming, p b)
    (hrest : ∀ b ∈ (settle rest).1, p b) : ∀ b ∈ (settle (o :: rest)).1, p b := by
  simp only [settle]
  split
  · exact List.forall_mem_append.2 ⟨List.forall_mem_append.2 ⟨hlifted, hnaming⟩, hrest⟩
  · exact List.forall_mem_append.2 ⟨hlifted, hrest⟩

theorem under_settle {args : List Expr} (short : Bool) (guard : List Expr) {lets : Nat} (guards : Nat)
    (h : ∀ e ∈ args, ∀ guard lets guards, e.Numbered lets →
      ∀ b ∈ (lift guard e guards).2.1, Under guard lets guards b)
    (hnum : NumberedList lets args) :
    ∀ b ∈ (Operand.settle (liftOperands short guard args guards).1).1, Under guard lets guards b := by
  induction args generalizing guard lets guards with
  | nil => exact fun b hb => nomatch hb
  | cons e es ih =>
    rw [List.forall_mem_cons] at h
    have hlifted := h.1 guard lets guards hnum.1
    have hle := le_lift guard e guards
    have hle' := Nat.le_trans hle (le_atom (lift guard e guards).1 (lift guard e guards).2.2)
    refine Operand.forall_mem_settle_cons hlifted (fun b hb => ?_) fun b hb => ?_
    · exact (under_naming b hb).mono_self (Nat.le_refl _) hle
    · exact (ih _ _ h.2 hnum.2 b hb).mono (by omega) hle'

/-- All bindings lifted out of a tree are under the conditions that lead to the tree. -/
theorem under_lift {e : Expr} (guard : List Expr) {lets : Nat} (guards : Nat) (hnum : e.Numbered lets) :
    ∀ b ∈ (lift guard e guards).2.1, Under guard lets guards b := by
  induction e using treeInduction generalizing guard lets guards with
  | const | var => exact fun b hb => nomatch hb
  | member inner field ih => exact ih guard guards hnum
  | unary op inner ih => exact ih guard guards hnum
  | binary op left right ihl ihr =>
    refine List.forall_mem_append.2 ⟨ihl _ _ hnum.1, fun b hb => ?_⟩
    exact (ihr _ _ hnum.2 b hb).mono_self (by omega) (le_lift guard left guards)
  | bind name value body ihv ihb =>
    obtain ⟨hnv, ⟨source, rfl⟩, hnb⟩ := hnum
    refine List.forall_mem_append.2 ⟨ihv _ _ hnv, List.forall_mem_cons.2 ⟨?_, fun b hb => ?_⟩⟩
    · exact ⟨[], _, _, by rw [List.append_nil], .inl ⟨source, _, Nat.le_add_right _ _, rfl⟩⟩
    · exact (ihb _ _ hnb b hb).mono_self (by omega) (le_lift guard value guards)
  | branch cond yes no ihc ihy ihn =>
    obtain ⟨hnc, hny, hnn⟩ := hnum
    have hle := le_lift guard cond guards
    have hle' := Nat.le_trans hle (le_atom (lift guard cond guards).1 (lift guard cond guards).2.2)
    simp only [lift]
    split
    · exact ihc _ _ hnc
    · rw [List.append_assoc, List.append_assoc]
      refine List.forall_mem_append.2 ⟨ihc _ _ hnc, List.forall_mem_append.2 ⟨fun b hb => ?_,
        List.forall_mem_append.2 ⟨fun b hb => ?_, fun b hb => ?_⟩⟩⟩
      · exact (under_naming b hb).mono_self (Nat.le_refl _) hle
      · exact (ihy _ _ hny b hb).mono (by omega) hle'
      · exact (ihn _ _ hnn b hb).mono (by omega) (Nat.le_trans hle' (le_lift _ yes _))
  | call func args ih =>
    have hargs : ∀ e ∈ args, ∀ guard lets guards, e.Numbered lets →
        ∀ b ∈ (lift guard e guards).2.1, Under guard lets guards b :=
      fun e he guard lets guards hnum => ih e he guard guards hnum
    unfold lift
    split
    · exact under_settle _ _ _ hargs hnum
    · exact under_liftList hargs hnum

/-- Behind a condition that does not hold, nothing that is lifted out of a tree is evaluated. -/
theorem runAll_skip_of_under {guard : List Expr} {bs : List Binding} {lets guards : Nat}
    (hunder : ∀ b ∈ bs, Under guard lets guards b) (hfresh : FreshFrom renv lets guards)
    (hguard : evalDeciding order hosts renv false guard = .ok false) :
    Binding.runAll order hosts renv bs = .ok (renv, []) := by
  refine Binding.runAll_skip hguard fun b hb => ?_
  obtain ⟨more, name, value, rfl, hname⟩ := hunder b hb
  refine ⟨more, name, value, rfl, ?_⟩
  rcases hname with ⟨source, number, hle, rfl⟩ | ⟨number, hle, rfl⟩
  · exact hfresh.letName hle
  · exact hfresh.guardName hle

/-! ### Trees without bindings -/

namespace Operand

theorem settle_of_forall_eq_nil {os : List Operand} (h : ∀ o ∈ os, o.lifted = []) :
    settle os = ([], os.map (·.value)) := by
  induction os with
  | nil => rfl
  | cons o rest ih =>
    rw [List.forall_mem_cons] at h
    have hany : (rest.any fun later => !later.lifted.isEmpty) = false := by
      rw [List.any_eq_false]
      intro later hlater
      simp [h.2 later hlater]
    simp [settle, hany, ih h.2, h.1]

theorem settle_cons_of_any {o : Operand} {rest : List Operand}
    (h : (rest.any fun later => !later.lifted.isEmpty) = true) :
    settle (o :: rest) = (o.lifted ++ o.naming ++ (settle rest).1, o.atom :: (settle rest).2) := by
  simp [settle, h]

theorem settle_cons_of_forall_eq_nil {o : Operand} {rest : List Operand}
    (h : ∀ later ∈ rest, later.lifted = []) :
    settle (o :: rest) = (o.lifted, o.value :: rest.map (·.value)) := by
  have hany : (rest.any fun later => !later.lifted.isEmpty) = false := by
    rw [List.any_eq_false]
    intro later hlater
    simp [h later hlater]
  simp [settle, hany, settle_of_forall_eq_nil h]

theorem forall_eq_nil_of_settle {os : List Operand} (h : (settle os).1 = []) :
    ∀ o ∈ os, o.lifted = [] := by
  induction os with
  | nil => exact fun o ho => nomatch ho
  | cons o rest ih =>
    simp only [settle] at h
    rw [List.forall_mem_cons]
    split at h
    · obtain ⟨hleft, hrest⟩ := List.append_eq_nil_iff.1 h
      exact ⟨(List.append_eq_nil_iff.1 hleft).1, ih hrest⟩
    · obtain ⟨hleft, hrest⟩ := List.append_eq_nil_iff.1 h
      exact ⟨hleft, ih hrest⟩

end Operand

/-- Lifting nothing out of operands leaves them as they are. -/
theorem liftOperands_of_forall_eq_nil {args : List Expr} (short : Bool) (guard : List Expr)
    (guards : Nat)
    (ih : ∀ e ∈ args, ∀ {guard guards}, (lift guard e guards).2.1 = [] →
      (lift guard e guards).1 = e ∧ e.lets = 0)
    (h : ∀ o ∈ (liftOperands short guard args guards).1, o.lifted = []) :
    (liftOperands short guard args guards).1.map (·.value) = args ∧ letsList args = 0 := by
  induction args generalizing guard guards with
  | nil => exact ⟨rfl, rfl⟩
  | cons e es ihes =>
    rw [List.forall_mem_cons] at ih
    obtain ⟨he, hes⟩ := List.forall_mem_cons.1 h
    obtain ⟨hvalue, hlets⟩ := ih.1 he
    obtain ⟨hvalues, hlets'⟩ := ihes _ _ ih.2 hes
    exact ⟨congrArg₂ _ hvalue hvalues, by rw [letsList, hlets, hlets']⟩

/-- Lifting nothing out of arguments leaves them as they are. -/
theorem liftList_of_eq_nil {args : List Expr} {guard : List Expr} {guards : Nat}
    (ih : ∀ e ∈ args, ∀ {guard guards}, (lift guard e guards).2.1 = [] →
      (lift guard e guards).1 = e ∧ e.lets = 0)
    (h : (liftList guard args guards).2.1 = []) :
    (liftList guard args guards).1 = args ∧ letsList args = 0 := by
  induction args generalizing guards with
  | nil => exact ⟨rfl, rfl⟩
  | cons e es ihes =>
    rw [List.forall_mem_cons] at ih
    obtain ⟨he, hes⟩ := List.append_eq_nil_iff.1 h
    obtain ⟨heq, hlets⟩ := ih.1 he
    obtain ⟨heq', hlets'⟩ := ihes ih.2 hes
    exact ⟨congrArg₂ _ heq heq', by rw [letsList, hlets, hlets']⟩

/-- Lifting nothing out of a tree leaves it as it is, and it has no bindings. -/
theorem lift_of_eq_nil {e : Expr} {guard : List Expr} {guards : Nat}
    (h : (lift guard e guards).2.1 = []) : (lift guard e guards).1 = e ∧ e.lets = 0 := by
  induction e using treeInduction generalizing guard guards with
  | const | var => exact ⟨rfl, rfl⟩
  | member inner field ih =>
    obtain ⟨heq, hlets⟩ := ih h
    exact ⟨congrArg (member · field) heq, hlets⟩
  | unary op inner ih =>
    obtain ⟨heq, hlets⟩ := ih h
    exact ⟨congrArg (unary op) heq, hlets⟩
  | binary op left right ihl ihr =>
    obtain ⟨hl, hr⟩ := List.append_eq_nil_iff.1 h
    obtain ⟨heq, hlets⟩ := ihl hl
    obtain ⟨heq', hlets'⟩ := ihr hr
    exact ⟨congrArg₂ (binary op) heq heq', by rw [lets, hlets, hlets']⟩
  | bind name value body =>
    obtain ⟨-, hcons⟩ := List.append_eq_nil_iff.1 h
    cases hcons
  | branch cond yes no ihc ihy ihn =>
    simp only [lift] at h ⊢
    split at h
    · rename_i hempty
      rw [if_pos hempty]
      rw [Bool.and_eq_true, List.isEmpty_iff, List.isEmpty_iff] at hempty
      obtain ⟨heq, hlets⟩ := ihc h
      obtain ⟨heq', hlets'⟩ := ihy hempty.1
      obtain ⟨heq'', hlets''⟩ := ihn hempty.2
      exact ⟨by rw [heq', heq'', heq], by rw [lets, hlets, hlets', hlets'']⟩
    · rename_i hempty
      obtain ⟨hleft, hno⟩ := List.append_eq_nil_iff.1 h
      obtain ⟨-, hyes⟩ := List.append_eq_nil_iff.1 hleft
      exact absurd (by rw [hyes, hno]; rfl) hempty
  | call func args ih =>
    have hargs : ∀ e ∈ args, ∀ {guard guards}, (lift guard e guards).2.1 = [] →
        (lift guard e guards).1 = e ∧ e.lets = 0 := fun e he guard guards h => ih e he h
    simp only [lift] at h ⊢
    split at h
    · have hnil := Operand.forall_eq_nil_of_settle h
      obtain ⟨heq, hlets⟩ := liftOperands_of_forall_eq_nil _ _ _ hargs hnil
      simp only [Operand.settle_of_forall_eq_nil hnil]
      exact ⟨congrArg (call func) heq, hlets⟩
    · obtain ⟨heq, hlets⟩ := liftList_of_eq_nil hargs h
      exact ⟨congrArg (call func) heq, hlets⟩

/-! ### The rest of a tree and its bindings -/

/-- Where lifting a tree is run: the values of the tree's own environment are there, the made names from
the counts on are free, and the conditions that lead to the tree hold. -/
structure Ready (order : FloatOrder) (hosts : Hosts) (scope : Scope) (env renv : Env)
    (guard : List Expr) (lets guards : Nat) : Prop where
  typed : env.Typed scope
  le : env.Le renv
  fresh : FreshFrom renv lets guards
  holds : evalDeciding order hosts renv false guard = .ok true

section Ready

variable {scope : Scope} {guard : List Expr} {lets lets' guards guards' : Nat}

namespace Ready

/-- Bindings that have run in between do no harm. -/
theorem advance (h : Ready order hosts scope env renv guard lets guards) {renv' : Env}
    (hle : renv.Le renv') (hfresh : FreshFrom renv' lets' guards') :
    Ready order hosts scope env renv' guard lets' guards' where
  typed := h.typed
  le := h.le.trans hle
  fresh := hfresh
  holds := by
    rw [evalDeciding_mono hle (P := fun _ => True) (by rw [h.holds]; trivial), h.holds]

/-- One more condition, that has come out true. -/
theorem assume (h : Ready order hosts scope env renv guard lets guards) {test : Expr}
    (htest : eval order hosts renv test = .ok (.bool true)) :
    Ready order hosts scope env renv (guard ++ [test]) lets guards where
  typed := h.typed
  le := h.le
  fresh := h.fresh
  holds := by
    rw [evalDeciding_append, h.holds]
    simp [evalDeciding, htest, Value.toBool]

/-- One more condition, that has come out false. -/
theorem evalDeciding_refuted (h : Ready order hosts scope env renv guard lets guards) {test : Expr}
    (htest : eval order hosts renv test = .ok (.bool false)) :
    evalDeciding order hosts renv false (guard ++ [test]) = .ok false := by
  rw [evalDeciding_append, h.holds]
  simp [evalDeciding, htest, Value.toBool]

/-- Going under a binding whose value is held. -/
theorem enter (h : Ready order hosts scope env renv guard lets guards) {name : String} {value : Value}
    (hvalue : renv.lookup name = some value) :
    Ready order hosts ((name, value.type) :: scope) ((name, value) :: env) renv guard lets guards where
  typed := h.typed.cons rfl
  le := by
    intro x v hx
    rw [lookup_cons_ite] at hx
    split at hx
    · rename_i hxn
      rw [hxn, hvalue]
      exact hx
    · exact h.le x v hx
  fresh := h.fresh
  holds := h.holds

end Ready

/-- What lifting does to one tree, wherever it is ready to be run. -/
def Lifts (order : FloatOrder) (hosts : Hosts) (e : Expr) : Prop :=
  ∀ {scope ty env renv guard lets guards} (own : Nat), inferIn scope e = .ok ty → e.Numbered lets →
    Ready order hosts scope env renv guard lets guards →
      Realizes order hosts renv (lift guard e guards).2.1
        (fun renv' => eval order hosts renv' (lift guard e guards).1)
        (evalTraced ownName order hosts env e own) (lets + e.lets) (lift guard e guards).2.2

/-- The part that becomes a condition is held by what repeats it. -/
theorem Realizes.pin_atom {bs : List Binding} {value : Expr} {s : Traced Value}
    (h : Realizes order hosts renv bs (fun renv' => eval order hosts renv' value) s lets guards)
    (hguard : evalDeciding order hosts renv false guard = .ok true) :
    Pins order hosts renv (bs ++ naming guard value (atom value guards).2.1) (atom value guards).1 s []
      lets (atom value guards).2.2 := by
  -- A variable or constant is its own condition: evaluating it cannot fail by arithmetic.
  have hself : (∀ e renv', eval order hosts renv' value = .error e → ¬ e.isArithmetic) →
      Pins order hosts renv bs value s [] lets guards := by
    intro hnofault
    cases h with
    | stops run arithmetic fails => exact .stops run arithmetic fails
    | @runs renv' ran run le fresh agrees ran_eq =>
      cases hvalue : eval order hosts renv' value with
      | error e => exact absurd ((agrees renv' (.refl renv')).eq_error hvalue).1 (hnofault e renv' hvalue)
      | ok v =>
        have hs := (agrees renv' (.refl renv')).eq_ok hvalue
        obtain ⟨done, hdone⟩ := Traced.value_eq_ok_iff.1 hs
        refine .runs run le fresh (fun renv'' hle => ?_) hdone ?_
        · have hagrees := agrees renv'' hle
          rw [hs] at hagrees
          exact Except.agrees_ok_iff.1 hagrees
        · rw [ran_eq v done hdone, List.append_nil]
  have hnamed : Pins order hosts renv (bs ++ [guarded guard (guardName guards) value])
      (var (guardName guards)) s [] lets (guards + 1) :=
    h.pin (guardName guards) [] hguard (fun hfresh => hfresh.guardName (Nat.le_refl _))
      (fun hfresh => hfresh.cons_guardName _) (by simp [bindingsOf])
  cases value with
  | const v =>
    rw [atom, naming, List.append_nil]
    exact hself fun e renv' he => nomatch he
  | var x =>
    rw [atom, naming, List.append_nil]
    refine hself fun e renv' he => ?_
    rw [eval] at he
    split at he
    · cases he
    · cases he
      exact id
  | _ => exact hnamed

/-- Lifting arguments. -/
theorem realizes_liftList {args : List Expr} {tys : List ValueType} (own : Nat)
    (ih : ∀ e ∈ args, Lifts order hosts e)
    (htyped : List.Forall₂ (fun e ty => inferIn scope e = .ok ty) args tys)
    (hnum : NumberedList lets args) (h : Ready order hosts scope env renv guard lets guards) :
    Realizes order hosts renv (liftList guard args guards).2.1
      (fun renv' => evalList order hosts renv' (liftList guard args guards).1)
      (evalTracedList ownName order hosts env args own) (lets + letsList args)
      (liftList guard args guards).2.2 := by
  induction htyped generalizing renv lets guards own with
  | nil =>
    refine .of_nil h.fresh (fun renv' _ => rfl) fun vs done hdone => ?_
    exact Traced.eq_nil_of_lift_eq_done hdone
  | @cons e t es tys he _ ihes =>
    rw [List.forall_mem_cons] at ih
    rw [letsList, ← Nat.add_assoc]
    refine (ih.1 own he hnum.1 h).append (fun renv' hle hfresh => ?_) fun _ _ _ _ => trivial
    exact ihes _ ih.2 hnum.2 (h.advance hle hfresh)

theorem eval_negation {test : Expr} {b : Bool} (h : eval order hosts renv test = .ok (.bool b)) :
    eval order hosts renv (negation test) = .ok (.bool !b) := by
  rw [negation, eval, h]
  rfl

/-- A condition for going on behind an operand, by what the operand came to. -/
theorem eval_goesOn {test : Expr} (short : Bool) {b : Bool} (h : eval order hosts renv test = .ok (.bool b)) :
    eval order hosts renv (if short then negation test else test) = .ok (.bool (b != short)) := by
  cases short with
  | false => simpa using h
  | true => simpa using eval_negation h

/-- Operands behind one whose value is held. -/
theorem evalDeciding_cons_of_eval {test : Expr} {args : List Expr} {short b : Bool}
    (h : eval order hosts renv test = .ok (.bool b)) :
    evalDeciding order hosts renv short (test :: args) =
      if b = short then .ok short else evalDeciding order hosts renv short args := by
  rw [evalDeciding, h]
  rfl

theorem type_of_evalTraced {e : Expr} {own : Nat} {ty : ValueType} {v : Value}
    (htyped : env.Typed scope) (he : inferIn scope e = .ok ty)
    (hv : (evalTraced ownName order hosts env e own).value = .ok v) : v.type = ty := by
  have hyields : Yields ty (eval order hosts env e) := eval_yields he htyped
  rw [← value_evalTraced ownName env e own, hv] at hyields
  exact hyields

/-- Behind an operand that decides, nothing is evaluated. -/
theorem realizes_decided {bs : List Binding} {args : List Expr} {test goesOn : Expr} {short : Bool}
    (h : Ready order hosts scope env renv guard lets guards)
    (hunder : ∀ b ∈ bs, Under (guard ++ [goesOn]) lets guards b)
    (htest : ∀ renv', renv.Le renv' → eval order hosts renv' test = .ok (.bool short))
    (hgoesOn : eval order hosts renv goesOn = .ok (.bool false)) (hl : lets ≤ lets')
    (hg : guards ≤ guards') :
    Realizes order hosts renv bs (fun renv' => evalDeciding order hosts renv' short (test :: args))
      (Traced.lift (.ok short)) lets' guards' := by
  refine Realizes.append_skip (.of_nil h.fresh (fun renv' hle => ?_) ?_) (fun renv' hle hfresh => ?_) hl hg
  · rw [evalDeciding_cons_of_eval (htest renv' hle), if_pos rfl]
    rfl
  · exact fun b done hdone => Traced.eq_nil_of_lift_eq_done hdone
  · refine runAll_skip_of_under hunder hfresh ((h.advance hle hfresh).evalDeciding_refuted ?_)
    rw [eval_mono hle (P := fun _ => True) (by rw [hgoesOn]; trivial), hgoesOn]

/-- An operand before others that have no bindings need not be held. -/
theorem Realizes.cons_operand {bs : List Binding} {value : Expr} {es : List Expr} {s : Traced Value}
    {short : Bool} {own : Nat}
    (hfirst : Realizes order hosts renv bs (fun renv' => eval order hosts renv' value) s lets guards)
    (hbool : ∀ v, s.value = .ok v → ∃ b, v = .bool b) (henv : env.Typed scope) (hle : env.Le renv)
    (hes : ∀ e ∈ es, inferIn scope e = .ok .bool) (hlets : letsList es = 0) (hg : guards ≤ guards') :
    Realizes order hosts renv bs (fun renv' => evalDeciding order hosts renv' short (value :: es))
      (s >>= fun v => Traced.lift v.toBool >>= fun b =>
        if b = short then Traced.lift (.ok short)
        else decideTraced ownName order hosts env short es own) lets guards' := by
  refine hfirst.andThen (Nat.le_refl _) hg (fun renv' v hle' hv => ?_) fun v b done hdone => ?_
  · obtain ⟨b, rfl⟩ := hbool v hv
    rw [Value.toBool, Traced.lift_ok_bind, Except.ok_bind]
    by_cases hb : b = short
    · rw [if_pos hb, if_pos hb]
      rfl
    · rw [if_neg hb, if_neg hb, value_decideTraced fun e _ count => value_evalTraced ownName env e count]
      have hsat : (evalDeciding order hosts env short es).Satisfies fun _ => True :=
        evalDeciding_satisfies fun e he => eval_yields (hes e he) henv
      rw [evalDeciding_mono (hle.trans hle') hsat]
      exact hsat.agrees
  · obtain ⟨b', before, behind, hb, hgoesOn, rfl⟩ := Traced.bind_eq_done_iff.1 hdone
    rw [Traced.eq_nil_of_lift_eq_done hb, List.nil_append]
    split at hgoesOn
    · exact Traced.eq_nil_of_lift_eq_done hgoesOn
    · exact done_eq_nil_of_letsList hlets hgoesOn

/-- Lifting operands of which the first that equals `short` decides. -/
theorem realizes_settle {args : List Expr} {short : Bool} (own : Nat)
    (ih : ∀ e ∈ args, Lifts order hosts e) (htyped : ∀ e ∈ args, inferIn scope e = .ok .bool)
    (hnum : NumberedList lets args) (h : Ready order hosts scope env renv guard lets guards) :
    Realizes order hosts renv (Operand.settle (liftOperands short guard args guards).1).1
      (fun renv' => evalDeciding order hosts renv' short
        (Operand.settle (liftOperands short guard args guards).1).2)
      (decideTraced ownName order hosts env short args own) (lets + letsList args)
      (liftOperands short guard args guards).2 := by
  induction args generalizing renv guard lets guards own with
  | nil =>
    refine .of_nil h.fresh (fun renv' _ => rfl) fun b done hdone => ?_
    exact Traced.eq_nil_of_lift_eq_done hdone
  | cons e es ihes =>
    obtain ⟨ihe, ihrest⟩ := List.forall_mem_cons.1 ih
    obtain ⟨he, hrest⟩ := List.forall_mem_cons.1 htyped
    have hfirst := ihe own he hnum.1 h
    have hbool : ∀ v, (evalTraced ownName order hosts env e own).value = .ok v → ∃ b, v = .bool b :=
      fun v hv => Value.exists_bool (type_of_evalTraced h.typed he hv)
    obtain ⟨value, lifted, guards₁, hlift⟩ : ∃ a b c, lift guard e guards = (a, b, c) :=
      ⟨_, _, _, rfl⟩
    obtain ⟨test, name, guards₂, hatom⟩ : ∃ a b c, atom value guards₁ = (a, b, c) := ⟨_, _, _, rfl⟩
    obtain ⟨goesOn, hgoesOn⟩ : ∃ c, c = if short then negation test else test := ⟨_, rfl⟩
    obtain ⟨rest, guards₃, hoperands⟩ : ∃ a b,
        liftOperands short (guard ++ [goesOn]) es guards₂ = (a, b) := ⟨_, _, rfl⟩
    have hle₂ : guards₁ ≤ guards₂ := by simpa only [hatom] using le_atom value guards₁
    have hle₃ : guards₂ ≤ guards₃ := by
      simpa only [hoperands] using le_liftOperands
        (fun e (_ : e ∈ es) guard guards => le_lift guard e guards) short (guard ++ [goesOn]) guards₂
    rw [hlift] at hfirst
    rw [letsList, ← Nat.add_assoc]
    simp only [liftOperands, hlift, hatom, ← hgoesOn, hoperands]
    by_cases hany : (rest.any fun later => !later.lifted.isEmpty) = true
    · rw [Operand.settle_cons_of_any hany]
      have hpin := hfirst.pin_atom h.holds
      simp only [hatom] at hpin
      refine hpin.andThen_nil fun renv' v hle hfresh hv htest => ?_
      obtain ⟨b, rfl⟩ := hbool v hv
      have hready := h.advance hle hfresh
      have hgoes := eval_goesOn short (htest renv' (.refl renv'))
      rw [← hgoesOn] at hgoes
      rw [Value.toBool, Traced.lift_ok_bind]
      by_cases hb : b = short
      · subst hb
        have hunder := under_settle b (guard ++ [goesOn]) guards₂
          (fun e _ guard lets guards hnum => under_lift guard guards hnum) hnum.2
        rw [hoperands] at hunder
        rw [bne_self_eq_false] at hgoes
        rw [if_pos rfl]
        exact realizes_decided hready hunder htest hgoes (Nat.le_add_right _ _) hle₃
      · have htrue : (b != short) = true := by simpa using hb
        rw [htrue] at hgoes
        have hrealizes := ihes (own + e.lets) ihrest hrest hnum.2 (hready.assume hgoes)
        rw [hoperands] at hrealizes
        rw [if_neg hb]
        refine hrealizes.congr_result fun renv'' hle' => ?_
        rw [evalDeciding_cons_of_eval (htest renv'' hle'), if_neg hb]
    · have hnil : ∀ o ∈ rest, o.lifted = [] := by
        intro o ho
        simp only [List.any_eq_true, not_exists, not_and] at hany
        simpa using hany o ho
      have hself := liftOperands_of_forall_eq_nil short (guard ++ [goesOn]) guards₂
        (fun e (_ : e ∈ es) _ _ h => lift_of_eq_nil h) (by rwa [hoperands])
      rw [hoperands] at hself
      rw [Operand.settle_cons_of_forall_eq_nil hnil, hself.1, hself.2]
      exact hfirst.cons_operand hbool h.typed h.le hrest hself.2 (Nat.le_trans hle₂ hle₃)

/-- Lifting the value of a binding, that binding, and its body. -/
theorem lifts_bind {name : String} {value body : Expr} (ihv : Lifts order hosts value)
    (ihb : Lifts order hosts body) : Lifts order hosts (bind name value body) := by
  intro scope ty env renv guard lets guards own htyped hnum h
  obtain ⟨t, hv, hb⟩ := inferIn_bind.1 htyped
  obtain ⟨hnv, ⟨source, rfl⟩, hnb⟩ := hnum
  have hpin := (ihv own hv hnv h).pin (letName source (lets + value.lets))
    [letName source (lets + value.lets)] h.holds (fun hfresh => hfresh.letName (Nat.le_refl _))
    (fun hfresh => hfresh.cons_letName source _) (by simp [bindingsOf])
  have hlets : lets + (bind (letName source (lets + value.lets)) value body).lets =
      lets + value.lets + 1 + body.lets := by
    rw [Expr.lets]
    omega
  rw [hlets]
  simp only [lift]
  rw [List.append_cons]
  refine hpin.andThen fun renv' v hle hfresh hvalue htest => ?_
  have hlookup : renv'.lookup (letName source (lets + value.lets)) = some v := by
    have := htest renv' (.refl renv')
    rw [eval] at this
    split at this
    · rename_i w hw
      cases this
      exact hw
    · cases this
  obtain rfl := type_of_evalTraced h.typed hv hvalue
  exact ihb _ hb hnb ((h.advance hle hfresh).enter hlookup)

/-- Lifting a choice. If one of its sides has bindings, the condition is held, and of the two sides only
the bindings of the one that is taken are evaluated. -/
theorem lifts_branch {cond yes no : Expr} (ihc : Lifts order hosts cond) (ihy : Lifts order hosts yes)
    (ihn : Lifts order hosts no) : Lifts order hosts (branch cond yes no) := by
  intro scope ty env renv guard lets guards own htyped hnum h
  obtain ⟨hc, hy, hn⟩ := inferIn_branch.1 htyped
  obtain ⟨hnc, hny, hnn⟩ := hnum
  have hfirst := ihc own hc hnc h
  have hbool : ∀ {v}, (evalTraced ownName order hosts env cond own).value = .ok v →
      ∃ b, v = .bool b := fun hv => Value.exists_bool (type_of_evalTraced h.typed hc hv)
  obtain ⟨cond', before, guards₁, hlift⟩ : ∃ a b c, lift guard cond guards = (a, b, c) :=
    ⟨_, _, _, rfl⟩
  obtain ⟨test, name, guards₂, hatom⟩ : ∃ a b c, atom cond' guards₁ = (a, b, c) := ⟨_, _, _, rfl⟩
  obtain ⟨yes', ifTrue, guards₃, hyes⟩ : ∃ a b c, lift (guard ++ [test]) yes guards₂ = (a, b, c) :=
    ⟨_, _, _, rfl⟩
  obtain ⟨no', ifFalse, guards₄, hno⟩ : ∃ a b c,
      lift (guard ++ [negation test]) no guards₃ = (a, b, c) := ⟨_, _, _, rfl⟩
  have hle₂ : guards₁ ≤ guards₂ := by simpa only [hatom] using le_atom cond' guards₁
  have hle₃ : guards₂ ≤ guards₃ := by simpa only [hyes] using le_lift (guard ++ [test]) yes guards₂
  have hle₄ : guards₃ ≤ guards₄ := by
    simpa only [hno] using le_lift (guard ++ [negation test]) no guards₃
  rw [hlift] at hfirst
  rw [Expr.lets, ← Nat.add_assoc, ← Nat.add_assoc]
  simp only [lift, hlift, hatom, hyes, hno]
  split
  · -- Neither side has bindings, so both are left as they are and the condition need not be held.
    rename_i hempty
    rw [Bool.and_eq_true, List.isEmpty_iff, List.isEmpty_iff] at hempty
    have hyes' := @lift_of_eq_nil yes (guard ++ [test]) guards₂
    have hno' := @lift_of_eq_nil no (guard ++ [negation test]) guards₃
    rw [hyes] at hyes'
    rw [hno] at hno'
    obtain ⟨rfl, hylets⟩ := hyes' hempty.1
    obtain ⟨rfl, hnlets⟩ := hno' hempty.2
    have hle := Nat.le_trans hle₂ (Nat.le_trans hle₃ hle₄)
    refine hfirst.andThen (by omega) hle (fun renv' v hle hv => ?_) fun v w done hdone => ?_
    · obtain ⟨b, rfl⟩ := hbool hv
      rw [Value.toBool, Traced.lift_ok_bind, Except.ok_bind]
      cases b with
      | true =>
        have hsat : Yields ty (eval order hosts env yes') := eval_yields hy h.typed
        simp only [if_true]
        rw [value_evalTraced, eval_mono (h.le.trans hle) hsat]
        exact hsat.agrees
      | false =>
        have hsat : Yields ty (eval order hosts env no') := eval_yields hn h.typed
        simp only [Bool.false_eq_true, if_false]
        rw [value_evalTraced, eval_mono (h.le.trans hle) hsat]
        exact hsat.agrees
    · obtain ⟨b, first, behind, hb, hside, rfl⟩ := Traced.bind_eq_done_iff.1 hdone
      rw [Traced.eq_nil_of_lift_eq_done hb, List.nil_append]
      cases b with
      | true => exact done_eq_nil_of_lets hylets hside
      | false => exact done_eq_nil_of_lets hnlets hside
  · have hpin := hfirst.pin_atom h.holds
    simp only [hatom] at hpin
    rw [List.append_assoc]
    refine hpin.andThen_nil fun renv' v hle hfresh hv htest => ?_
    obtain ⟨b, rfl⟩ := hbool hv
    have hready := h.advance hle hfresh
    have hnegation := fun renv'' hle' => eval_negation (htest renv'' hle')
    rw [Value.toBool, Traced.lift_ok_bind]
    cases b with
    | true =>
      have hunder := under_lift (guard ++ [negation test]) guards₃ hnn
      have hside := ihy (own + cond.lets) hy hny (hready.assume (htest renv' (.refl renv')))
      rw [hno] at hunder
      rw [hyes] at hside
      refine ((hside.append_skip (fun renv'' hle' hfresh' => ?_) (by omega) hle₄).congr_result
        fun renv'' hle' => ?_)
      · have hready' := hready.advance hle' (hfresh'.mono (Nat.le_refl _) (Nat.le_refl _))
        exact runAll_skip_of_under hunder hfresh' (hready'.evalDeciding_refuted (hnegation renv'' hle'))
      · rw [eval, htest renv'' hle']
        rfl
    | false =>
      have hunder := under_lift (guard ++ [test]) guards₂ hny
      have hready' := hready.advance (.refl renv') (hfresh.mono (Nat.le_add_right _ yes.lets) hle₃)
      have hside := ihn (own + cond.lets + yes.lets) hn hnn
        (hready'.assume (hnegation renv' (.refl renv')))
      rw [hyes] at hunder
      rw [hno] at hside
      refine (Realizes.skip_append ?_ hside).congr_result fun renv'' hle' => ?_
      · exact runAll_skip_of_under hunder hfresh
          (hready.evalDeciding_refuted (htest renv' (.refl renv')))
      · rw [eval, htest renv'' hle']
        rfl

/-- Running what is lifted out of a tree, and then evaluating what is left of it, comes to the tree. -/
theorem lift_realizes (e : Expr) : Lifts order hosts e := by
  induction e using treeInduction with
  | const value =>
    intro scope ty env renv guard lets guards own _ _ h
    refine .of_nil h.fresh (fun renv' _ => rfl) fun v done hdone => ?_
    exact Traced.eq_nil_of_lift_eq_done hdone
  | var name =>
    intro scope ty env renv guard lets guards own htyped _ h
    refine .of_nil h.fresh (fun renv' hle => ?_) fun v done hdone => ?_
    · have hsat : Yields ty (eval order hosts env (var name)) := eval_yields htyped h.typed
      rw [value_evalTraced, lift, eval_mono (h.le.trans hle) hsat]
      exact hsat.agrees
    · exact Traced.eq_nil_of_lift_eq_done hdone
  | member inner field ih =>
    intro scope ty env renv guard lets guards own htyped hnum h
    obtain ⟨t, hinner, hfield⟩ := inferIn_member.1 htyped
    refine (ih own hinner hnum h).andThen (Nat.le_refl _) (Nat.le_refl _) (fun _ v _ hv => ?_)
      fun _ _ _ => Traced.eq_nil_of_lift_eq_done
    obtain rfl := type_of_evalTraced h.typed hinner hv
    rw [Traced.value_lift]
    exact (Value.member_yields hfield).agrees
  | unary op inner ih =>
    intro scope ty env renv guard lets guards own htyped hnum h
    obtain ⟨t, hinner, hop⟩ := inferIn_unary.1 htyped
    refine (ih own hinner hnum h).andThen (Nat.le_refl _) (Nat.le_refl _) (fun _ v _ hv => ?_)
      fun _ _ _ => Traced.eq_nil_of_lift_eq_done
    obtain rfl := type_of_evalTraced h.typed hinner hv
    rw [Traced.value_lift]
    exact (Value.unary_yields hop).agrees
  | binary op left right ihl ihr =>
    intro scope ty env renv guard lets guards own htyped hnum h
    obtain ⟨l, r, hl, hr, hop⟩ := inferIn_binary.1 htyped
    rw [Expr.lets, ← Nat.add_assoc]
    refine (ihl own hl hnum.1 h).append (fun renv' hle hfresh => ihr _ hr hnum.2 (h.advance hle hfresh))
      fun a b ha hb => ?_
    obtain rfl := type_of_evalTraced h.typed hl ha
    obtain rfl := type_of_evalTraced h.typed hr hb
    exact (Value.binary_yields hop).mono fun _ _ => trivial
  | bind name value body ihv ihb => exact lifts_bind ihv ihb
  | branch cond yes no ihc ihy ihn => exact lifts_branch ihc ihy ihn
  | call func args ih =>
    intro scope ty env renv guard lets guards own htyped hnum h
    obtain ⟨tys, hargs, htype⟩ := inferIn_call.1 htyped
    by_cases hshort : func = .and ∨ func = .or
    · have hbool : ∀ t ∈ tys, t = .bool := by
        have htype := (Func.type_eq_ok_iff.1 htype).2
        rcases hshort with rfl | rfl
        · exact (Func.type?_and.1 htype).2
        · exact (Func.type?_or.1 htype).2
      have hargs : ∀ e ∈ args, inferIn scope e = .ok .bool := by
        intro e he
        obtain ⟨t, ht, hty⟩ := hargs.exists_of_mem_left he
        exact hbool t ht ▸ hty
      rcases hshort with rfl | rfl
      · exact (realizes_settle own ih hargs hnum h).andThen (Nat.le_refl _) (Nat.le_refl _)
          (fun _ _ _ _ => rfl) fun _ _ _ => Traced.eq_nil_of_lift_eq_done
      · exact (realizes_settle own ih hargs hnum h).andThen (Nat.le_refl _) (Nat.le_refl _)
          (fun _ _ _ _ => rfl) fun _ _ _ => Traced.eq_nil_of_lift_eq_done
    · rw [not_or] at hshort
      have hnone : shortCircuit? func = none := by
        cases func <;> first | rfl | simp at hshort
      rw [evalTraced_call hshort.1 hshort.2]
      simp only [lift, hnone, eval_call hshort.1 hshort.2]
      refine (realizes_liftList own ih hargs hnum h).andThen (Nat.le_refl _) (Nat.le_refl _)
        (fun _ vs _ hvs => ?_) fun _ _ _ => Traced.eq_nil_of_lift_eq_done
      rw [value_evalTracedList fun e _ count => value_evalTraced ownName env e count] at hvs
      have hyields : List.Forall₂ (fun e t => Yields t (eval order hosts env e)) args tys :=
        hargs.imp_of_mem fun e t _ he => eval_yields he h.typed
      have htys := evalList_satisfies hyields
      rw [hvs] at htys
      obtain rfl := htys
      rw [Traced.value_lift]
      exact (Func.apply_yields htype).agrees

end Ready

end Barrage.Expr
