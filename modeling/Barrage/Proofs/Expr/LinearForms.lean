import Barrage.Expr.Printer
import Barrage.Proofs.Expr.LiftRules
import Barrage.Proofs.Expr.LinearTypes

/-!
# The parts of a linear form

Lifting takes the bindings out of a tree, and what it puts together again has none: not the values of the
bindings, not their conditions, not the result. It makes no constants either, so that a tree without host objects
has a linear form without them, which can be printed whether it has a type or not. The names that it binds are
numbered from left to right, those of bindings and those of conditions each on their own, and are therefore all
different, although some numbers are given to conditions that are not named in the end.

## Main definitions

* `Expr.Bare`, `Binding.Bare`, `Linear.Bare` — parts without bindings and without host objects
* `MadeNames` — different names with numbers in some range

## Main results

* `Expr.bare_linearize` — the linear form of a tree without host objects
* `Linear.Bare.exists_print` — such a form can be printed
* `Expr.madeNames_linearize` — the names of the bindings of a linear form
* `Expr.linearize_of_lets` — a tree without bindings is its own linear form
-/

namespace Barrage

open Barrage.Expr

/-! ### Parts without bindings and objects -/

/-- Trees without bindings and without host objects. -/
structure Expr.Bare (e : Expr) : Prop where
  lets : e.lets = 0
  objects : e.objects = []

/-- Bindings whose parts are bare. -/
structure Binding.Bare (b : Binding) : Prop where
  guard : ∀ cond, b.guard = some cond → cond.Bare
  value : b.value.Bare

/-- Linear forms whose parts are bare. -/
structure Linear.Bare (l : Linear) : Prop where
  bindings : ∀ b ∈ l.bindings, b.Bare
  result : l.result.Bare

namespace Expr

variable {left right cond yes no value : Expr} {guard args : List Expr}

theorem Bare.binary (op : BinOp) (hl : left.Bare) (hr : right.Bare) : (binary op left right).Bare where
  lets := Nat.add_eq_zero_iff.2 ⟨hl.lets, hr.lets⟩
  objects := List.append_eq_nil_iff.2 ⟨hl.objects, hr.objects⟩

theorem Bare.branch (hc : cond.Bare) (hy : yes.Bare) (hn : no.Bare) : (branch cond yes no).Bare where
  lets := Nat.add_eq_zero_iff.2 ⟨Nat.add_eq_zero_iff.2 ⟨hc.lets, hy.lets⟩, hn.lets⟩
  objects := List.append_eq_nil_iff.2 ⟨List.append_eq_nil_iff.2 ⟨hc.objects, hy.objects⟩, hn.objects⟩

theorem Bare.call (func : Func) (h : ∀ e ∈ args, e.Bare) : (call func args).Bare := by
  suffices hall : letsList args = 0 ∧ objectsList args = [] from ⟨hall.1, hall.2⟩
  induction args with
  | nil => exact ⟨rfl, rfl⟩
  | cons e es ih =>
    obtain ⟨he, hes⟩ := List.forall_mem_cons.1 h
    obtain ⟨hlets, hobjects⟩ := ih hes
    exact ⟨Nat.add_eq_zero_iff.2 ⟨he.lets, hlets⟩, List.append_eq_nil_iff.2 ⟨he.objects, hobjects⟩⟩

theorem Bare.atom (h : value.Bare) (n : Nat) : (atom value n).1.Bare := by
  cases value with
  | const | var => exact h
  | _ => exact ⟨rfl, rfl⟩

theorem Bare.negation {test : Expr} (h : test.Bare) : (negation test).Bare := ⟨h.lets, h.objects⟩

theorem Bare.conjunction (h : ∀ g ∈ guard, g.Bare) : ∀ cond, conjunction guard = some cond → cond.Bare := by
  intro cond hcond
  match guard, hcond with
  | [_], rfl => exact h cond (by simp)
  | _ :: _ :: _, rfl => exact .call .and h

/-- The conditions behind a test that leads on if it holds, or if it does not. -/
theorem Bare.guard_concat (h : ∀ g ∈ guard, g.Bare) {test : Expr} (htest : test.Bare) (short : Bool) :
    ∀ g ∈ guard ++ [if short then Expr.negation test else test], g.Bare := by
  refine List.forall_mem_append.2 ⟨h, List.forall_mem_singleton.2 ?_⟩
  cases short with
  | true => exact htest.negation
  | false => exact htest

theorem bare_guarded (h : ∀ g ∈ guard, g.Bare) (name : String) (hvalue : value.Bare) :
    (guarded guard name value).Bare :=
  ⟨Bare.conjunction h, hvalue⟩

theorem bare_naming (h : ∀ g ∈ guard, g.Bare) (hvalue : value.Bare) (name? : Option String) :
    ∀ b ∈ naming guard value name?, b.Bare := by
  cases name? with
  | none => exact List.forall_mem_nil _
  | some name => exact List.forall_mem_singleton.2 (bare_guarded h name hvalue)

/-- What is lifted out of a tree without objects is bare, and so is what is left of it. -/
def LiftsBare (guard : List Expr) (objects : List Value) (rest : List Expr) (bs : List Binding) : Prop :=
  objects = [] → (∀ g ∈ guard, g.Bare) → (∀ e ∈ rest, e.Bare) ∧ ∀ b ∈ bs, b.Bare

theorem bare_rules :
    LiftRules (fun guard e _ e' bs _ => LiftsBare guard e.objects [e'] bs)
      (fun guard es _ es' bs _ => LiftsBare guard (objectsList es) es' bs)
      (fun _ guard es _ es' bs _ => LiftsBare guard (objectsList es) es' bs) where
  const hobjects _ := ⟨List.forall_mem_singleton.2 ⟨rfl, hobjects⟩, List.forall_mem_nil _⟩
  var _ _ := ⟨List.forall_mem_singleton.2 ⟨rfl, rfl⟩, List.forall_mem_nil _⟩
  member field h hobjects hguard := by
    obtain ⟨hinner, hbs⟩ := h hobjects hguard
    rw [List.forall_mem_singleton] at hinner ⊢
    exact ⟨⟨hinner.lets, hinner.objects⟩, hbs⟩
  unary op h hobjects hguard := by
    obtain ⟨hinner, hbs⟩ := h hobjects hguard
    rw [List.forall_mem_singleton] at hinner ⊢
    exact ⟨⟨hinner.lets, hinner.objects⟩, hbs⟩
  binary op hl hr hobjects hguard := by
    obtain ⟨hol, hor⟩ := List.append_eq_nil_iff.1 hobjects
    obtain ⟨hleft, hbs⟩ := hl hol hguard
    obtain ⟨hright, hcs⟩ := hr hor hguard
    rw [List.forall_mem_singleton] at hleft hright ⊢
    exact ⟨.binary op hleft hright, List.forall_mem_append.2 ⟨hbs, hcs⟩⟩
  bind name hv hb hobjects hguard := by
    obtain ⟨hov, hob⟩ := List.append_eq_nil_iff.1 hobjects
    obtain ⟨hvalue, hbs⟩ := hv hov hguard
    obtain ⟨hbody, hcs⟩ := hb hob hguard
    rw [List.forall_mem_singleton] at hvalue
    exact ⟨hbody, List.forall_mem_append.2 ⟨hbs, List.forall_mem_cons.2 ⟨bare_guarded hguard name hvalue, hcs⟩⟩⟩
  choice hc hy hn hobjects hguard := by
    obtain ⟨hocy, hon⟩ := List.append_eq_nil_iff.1 hobjects
    obtain ⟨hoc, hoy⟩ := List.append_eq_nil_iff.1 hocy
    obtain ⟨hcond, hbs⟩ := hc hoc hguard
    rw [List.forall_mem_singleton] at hcond
    obtain ⟨hyes, -⟩ := hy hoy (Bare.guard_concat hguard (hcond.atom _) false)
    obtain ⟨hno, -⟩ := hn hon (Bare.guard_concat hguard (hcond.atom _) true)
    rw [List.forall_mem_singleton] at hyes hno ⊢
    exact ⟨.branch hcond hyes hno, hbs⟩
  namedChoice hc hy hn _ hobjects hguard := by
    obtain ⟨hocy, hon⟩ := List.append_eq_nil_iff.1 hobjects
    obtain ⟨hoc, hoy⟩ := List.append_eq_nil_iff.1 hocy
    obtain ⟨hcond, hbs⟩ := hc hoc hguard
    rw [List.forall_mem_singleton] at hcond
    obtain ⟨hyes, hcs⟩ := hy hoy (Bare.guard_concat hguard (hcond.atom _) false)
    obtain ⟨hno, hds⟩ := hn hon (Bare.guard_concat hguard (hcond.atom _) true)
    rw [List.forall_mem_singleton] at hyes hno ⊢
    refine ⟨.branch (hcond.atom _) hyes hno, List.forall_mem_append.2 ⟨List.forall_mem_append.2 ⟨?_, hcs⟩, hds⟩⟩
    exact List.forall_mem_append.2 ⟨hbs, bare_naming hguard hcond _⟩
  call _ h hobjects hguard := by
    obtain ⟨hargs, hbs⟩ := h hobjects hguard
    exact ⟨List.forall_mem_singleton.2 (.call _ hargs), hbs⟩
  deciding _ h hobjects hguard := by
    obtain ⟨hargs, hbs⟩ := h hobjects hguard
    exact ⟨List.forall_mem_singleton.2 (.call _ hargs), hbs⟩
  noArgument _ _ := ⟨List.forall_mem_nil _, List.forall_mem_nil _⟩
  argument he hes hobjects hguard := by
    obtain ⟨hoe, hoes⟩ := List.append_eq_nil_iff.1 hobjects
    obtain ⟨hfirst, hbs⟩ := he hoe hguard
    obtain ⟨hrest, hcs⟩ := hes hoes hguard
    exact ⟨List.forall_mem_append.2 ⟨hfirst, hrest⟩, List.forall_mem_append.2 ⟨hbs, hcs⟩⟩
  noOperand _ _ := ⟨List.forall_mem_nil _, List.forall_mem_nil _⟩
  operand he hes hobjects hguard := by
    obtain ⟨hoe, hoes⟩ := List.append_eq_nil_iff.1 hobjects
    obtain ⟨hfirst, hbs⟩ := he hoe hguard
    rw [List.forall_mem_singleton] at hfirst
    obtain ⟨hrest, -⟩ := hes hoes (Bare.guard_concat hguard (hfirst.atom _) _)
    exact ⟨List.forall_mem_cons.2 ⟨hfirst, hrest⟩, hbs⟩
  namedOperand he hes _ hobjects hguard := by
    obtain ⟨hoe, hoes⟩ := List.append_eq_nil_iff.1 hobjects
    obtain ⟨hfirst, hbs⟩ := he hoe hguard
    rw [List.forall_mem_singleton] at hfirst
    obtain ⟨hrest, hcs⟩ := hes hoes (Bare.guard_concat hguard (hfirst.atom _) _)
    refine ⟨List.forall_mem_cons.2 ⟨hfirst.atom _, hrest⟩, List.forall_mem_append.2 ⟨?_, hcs⟩⟩
    exact List.forall_mem_append.2 ⟨hbs, bare_naming hguard hfirst _⟩

/-- The linear form of a tree without objects is bare. -/
theorem bare_linearize {e : Expr} (h : e.objects = []) (hoisted : List Hoisted) : (e.linearize hoisted).Bare := by
  have hobjects : (rename [] e 0).1.objects = [] := by rw [objects_rename, h]
  obtain ⟨hresult, hbindings⟩ := bare_rules.lift [] (rename [] e 0).1 0 hobjects (List.forall_mem_nil _)
  exact ⟨hbindings, List.forall_mem_singleton.1 hresult⟩

/-! ### Printing -/

/-- Only objects cannot be printed. -/
theorem exists_literal {value : Value} (h : (const value).objects = []) : ∃ text, value.literal = .ok text := by
  cases value with
  | timer | entity => cases h
  | _ => exact ⟨_, rfl⟩

/-- A tree without objects can be printed. -/
theorem exists_print {e : Expr} (h : e.objects = []) : ∃ text, e.print = .ok text := by
  induction e using treeInduction with
  | const value => exact exists_literal h
  | var name => exact ⟨name, rfl⟩
  | member inner field ih =>
    obtain ⟨text, hinner⟩ := ih h
    exact ⟨_, by rw [print, hinner, Except.ok_bind]⟩
  | unary op inner ih =>
    obtain ⟨text, hinner⟩ := ih h
    exact ⟨_, by rw [print, hinner, Except.ok_bind]⟩
  | binary op left right ihl ihr =>
    obtain ⟨hol, hor⟩ := List.append_eq_nil_iff.1 h
    obtain ⟨text, hleft⟩ := ihl hol
    obtain ⟨text', hright⟩ := ihr hor
    exact ⟨_, by rw [print, hleft, Except.ok_bind, hright, Except.ok_bind]⟩
  | branch cond yes no ihc ihy ihn =>
    obtain ⟨hocy, hon⟩ := List.append_eq_nil_iff.1 h
    obtain ⟨hoc, hoy⟩ := List.append_eq_nil_iff.1 hocy
    obtain ⟨text, hcond⟩ := ihc hoc
    obtain ⟨text', hyes⟩ := ihy hoy
    obtain ⟨text'', hno⟩ := ihn hon
    exact ⟨_, by rw [print, hcond, Except.ok_bind, hyes, Except.ok_bind, hno, Except.ok_bind]⟩
  | bind name value body ihv ihb =>
    obtain ⟨hov, hob⟩ := List.append_eq_nil_iff.1 h
    obtain ⟨text, hvalue⟩ := ihv hov
    obtain ⟨text', hbody⟩ := ihb hob
    exact ⟨_, by rw [print, hvalue, Except.ok_bind, hbody, Except.ok_bind]⟩
  | call func args ih =>
    suffices hargs : ∃ texts, printList args = .ok texts by
      obtain ⟨texts, hargs⟩ := hargs
      exact ⟨_, by rw [print, hargs, Except.ok_bind]⟩
    change objectsList args = [] at h
    induction args with
    | nil => exact ⟨[], rfl⟩
    | cons e es ihes =>
      obtain ⟨hoe, hoes⟩ := List.append_eq_nil_iff.1 h
      obtain ⟨text, he⟩ := ih e (by simp) hoe
      obtain ⟨texts, hes⟩ := ihes (fun e he => ih e (by simp [he])) hoes
      exact ⟨_, by rw [printList, he, Except.ok_bind, hes, Except.ok_bind]⟩

end Expr

theorem Binding.Bare.exists_print {b : Binding} (h : b.Bare) : ∃ text, b.print = .ok text := by
  obtain ⟨name, guard, value⟩ := b
  obtain ⟨text, hvalue⟩ := Expr.exists_print h.value.objects
  cases guard with
  | none => exact ⟨_, by rw [print, hvalue, Except.ok_bind]⟩
  | some cond =>
    obtain ⟨text', hcond⟩ := Expr.exists_print (h.guard cond rfl).objects
    exact ⟨_, by simp only [print, hvalue, Except.ok_bind, hcond]; rfl⟩

/-- A bare linear form can be printed. -/
theorem Linear.Bare.exists_print {l : Linear} (h : l.Bare) : ∃ text, l.print = .ok text := by
  have hbindings : ∀ bs : List Binding, (∀ b ∈ bs, b.Bare) → ∃ texts, bs.mapM Binding.print = .ok texts := by
    intro bs hbs
    induction bs with
    | nil => exact ⟨[], rfl⟩
    | cons b bs ih =>
      obtain ⟨hb, hbs⟩ := List.forall_mem_cons.1 hbs
      obtain ⟨text, htext⟩ := hb.exists_print
      obtain ⟨texts, htexts⟩ := ih hbs
      exact ⟨text :: texts, by rw [List.mapM_cons, htext, Except.ok_bind, htexts, Except.ok_bind]; rfl⟩
  obtain ⟨texts, htexts⟩ := hbindings l.bindings h.bindings
  obtain ⟨text, hresult⟩ := Expr.exists_print h.result.objects
  exact ⟨_, by rw [print, htexts, Except.ok_bind, hresult, Except.ok_bind]⟩

/-! ### Names -/

/-- Different names of bindings and of conditions: the numbers of the ones go from `lets` on and below `lets'`,
those of the others from `guards` on and below `guards'`. -/
structure MadeNames (lets lets' guards guards' : Nat) (names : List String) : Prop where
  lets_le : lets ≤ lets'
  guards_le : guards ≤ guards'
  nodup : names.Nodup
  made : ∀ x ∈ names, (∃ source number, x = letName source number ∧ lets ≤ number ∧ number < lets') ∨
    ∃ number, x = guardName number ∧ guards ≤ number ∧ number < guards'

namespace MadeNames

variable {lets lets' lets'' guards guards' guards'' : Nat} {xs ys : List String}

theorem skip (lets : Nat) (h : guards ≤ guards') : MadeNames lets lets guards guards' [] :=
  ⟨Nat.le_refl _, h, List.nodup_nil, List.forall_mem_nil _⟩

theorem append (h : MadeNames lets lets' guards guards' xs) (h' : MadeNames lets' lets'' guards' guards'' ys) :
    MadeNames lets lets'' guards guards'' (xs ++ ys) where
  lets_le := Nat.le_trans h.lets_le h'.lets_le
  guards_le := Nat.le_trans h.guards_le h'.guards_le
  nodup := by
    refine List.nodup_append.2 ⟨h.nodup, h'.nodup, ?_⟩
    rintro x hx _ hy rfl
    rcases h.made x hx with ⟨source, number, heq, -, hlt⟩ | ⟨number, heq, -, hlt⟩
    · rcases h'.made x hy with ⟨source', number', heq', hle, -⟩ | ⟨number', heq', -⟩
      · have := letName_injective (heq.symm.trans heq')
        omega
      · exact letName_ne_guardName (heq.symm.trans heq')
    · rcases h'.made x hy with ⟨source', number', heq', -⟩ | ⟨number', heq', hle, -⟩
      · exact letName_ne_guardName (heq'.symm.trans heq)
      · have := guardName_injective (heq.symm.trans heq')
        omega
  made := by
    have hlets := h.lets_le
    have hlets' := h'.lets_le
    have hguards := h.guards_le
    have hguards' := h'.guards_le
    refine List.forall_mem_append.2 ⟨fun x hx => ?_, fun x hx => ?_⟩
    · exact (h.made x hx).imp (fun ⟨source, number, heq, hle, hlt⟩ => ⟨source, number, heq, hle, by omega⟩)
        fun ⟨number, heq, hle, hlt⟩ => ⟨number, heq, hle, by omega⟩
    · exact (h'.made x hx).imp (fun ⟨source, number, heq, hle, hlt⟩ => ⟨source, number, heq, by omega, hlt⟩)
        fun ⟨number, heq, hle, hlt⟩ => ⟨number, heq, by omega, hlt⟩

theorem binding (source : String) (lets guards : Nat) :
    MadeNames lets (lets + 1) guards guards [letName source lets] where
  lets_le := Nat.le_succ _
  guards_le := Nat.le_refl _
  nodup := List.nodup_singleton _
  made := List.forall_mem_singleton.2 (.inl ⟨source, lets, rfl, Nat.le_refl _, Nat.lt_succ_self _⟩)

/-- The name of a condition, if it gets one. -/
theorem naming (guard : List Expr) (value : Expr) (lets guards : Nat) :
    MadeNames lets lets guards (atom value guards).2.2
      ((Expr.naming guard value (atom value guards).2.1).map (·.name)) := by
  have hnamed : MadeNames lets lets guards (guards + 1) [guardName guards] :=
    ⟨Nat.le_refl _, Nat.le_succ _, List.nodup_singleton _,
      List.forall_mem_singleton.2 (.inr ⟨guards, rfl, Nat.le_refl _, Nat.lt_succ_self _⟩)⟩
  cases value with
  | const | var => exact skip lets (Nat.le_refl _)
  | _ => exact hnamed

end MadeNames

namespace Expr

/-- The numbers of what is lifted out of numbered trees follow each other. -/
theorem madeNames_rules :
    LiftRules
      (fun _ e n _ bs n' => ∀ lets, e.Numbered lets → MadeNames lets (lets + e.lets) n n' (bs.map (·.name)))
      (fun _ es n _ bs n' =>
        ∀ lets, NumberedList lets es → MadeNames lets (lets + letsList es) n n' (bs.map (·.name)))
      (fun _ _ es n _ bs n' =>
        ∀ lets, NumberedList lets es → MadeNames lets (lets + letsList es) n n' (bs.map (·.name))) where
  const lets _ := .skip lets (Nat.le_refl _)
  var lets _ := .skip lets (Nat.le_refl _)
  member _ h := h
  unary _ h := h
  binary _ hl hr lets hnum := by
    rw [Expr.lets, ← Nat.add_assoc, List.map_append]
    exact (hl lets hnum.1).append (hr _ hnum.2)
  bind name hv hb lets hnum := by
    obtain ⟨hnv, ⟨source, rfl⟩, hnb⟩ := hnum
    rw [Expr.lets, ← Nat.add_assoc, ← Nat.add_assoc, List.map_append]
    exact (hv lets hnv).append ((MadeNames.binding source _ _).append (hb _ hnb))
  choice hc hy hn lets hnum := by
    obtain ⟨hnc, hny, hnn⟩ := hnum
    have hyes := hy _ hny
    have hno := hn _ hnn
    rw [Expr.lets, ← Nat.add_assoc, ← Nat.add_assoc, ← List.append_nil (List.map _ _)]
    -- The condition has taken a number, although it gets no name in the end.
    exact (hc lets hnc).append ((MadeNames.skip _ (le_atom _ _)).append (hyes.append hno))
  namedChoice hc hy hn _ lets hnum := by
    obtain ⟨hnc, hny, hnn⟩ := hnum
    rw [Expr.lets, ← Nat.add_assoc, ← Nat.add_assoc, List.map_append, List.map_append, List.map_append]
    exact (((hc lets hnc).append (MadeNames.naming _ _ _ _)).append (hy _ hny)).append (hn _ hnn)
  call _ h := h
  deciding _ h := h
  noArgument lets _ := .skip lets (Nat.le_refl _)
  argument he hes lets hnum := by
    rw [letsList, ← Nat.add_assoc, List.map_append]
    exact (he lets hnum.1).append (hes _ hnum.2)
  noOperand lets _ := .skip lets (Nat.le_refl _)
  operand he hes lets hnum := by
    rw [letsList, ← Nat.add_assoc, ← List.append_nil (List.map _ _)]
    exact (he lets hnum.1).append ((MadeNames.skip _ (le_atom _ _)).append (hes _ hnum.2))
  namedOperand he hes _ lets hnum := by
    rw [letsList, ← Nat.add_assoc, List.map_append, List.map_append]
    exact ((he lets hnum.1).append (MadeNames.naming _ _ _ _)).append (hes _ hnum.2)

/-- The bindings of a linear form have different names, made for bindings or for conditions. -/
theorem madeNames_linearize (e : Expr) (hoisted : List Hoisted) :
    ∃ guards, MadeNames 0 e.lets 0 guards ((e.linearize hoisted).bindings.map (·.name)) := by
  have hnames := madeNames_rules.lift [] (rename [] e 0).1 0 0 (numbered_rename [] e 0)
  rw [(renamedFrom_rename [] e 0).lets_eq, Nat.zero_add] at hnames
  exact ⟨_, hnames⟩

/-! ### Trees without bindings -/

/-- Where nothing is bound, nothing is renamed. -/
theorem rename_of_lets {e : Expr} (count : Nat) (h : e.lets = 0) : rename [] e count = (e, count) := by
  induction e using treeInduction generalizing count with
  | const | var => rfl
  | member inner field ih => rw [rename, ih count h]
  | unary op inner ih => rw [rename, ih count h]
  | binary op left right ihl ihr =>
    obtain ⟨hl, hr⟩ := Nat.add_eq_zero_iff.1 h
    simp only [rename, ihl count hl, ihr count hr]
  | branch cond yes no ihc ihy ihn =>
    obtain ⟨hcy, hn⟩ := Nat.add_eq_zero_iff.1 h
    obtain ⟨hc, hy⟩ := Nat.add_eq_zero_iff.1 hcy
    simp only [rename, ihc count hc, ihy count hy, ihn count hn]
  | bind name value body =>
    rw [lets] at h
    omega
  | call func args ih =>
    suffices hargs : renameList [] args count = (args, count) by rw [rename, hargs]
    change letsList args = 0 at h
    induction args generalizing count with
    | nil => rfl
    | cons e es ihes =>
      obtain ⟨he, hes⟩ := Nat.add_eq_zero_iff.1 h
      simp only [renameList, ih e (by simp) count he, ihes (fun e he => ih e (by simp [he])) count hes]

/-- A tree without bindings is its own linear form. -/
theorem linearize_of_lets {e : Expr} (h : e.lets = 0) (hoisted : List Hoisted) :
    e.linearize hoisted = ⟨hoisted, [], e⟩ := by
  obtain ⟨hresult, hbindings⟩ := lift_of_lets [] 0 h
  simp only [linearize, rename_of_lets 0 h, hresult, hbindings]

end Expr

end Barrage
