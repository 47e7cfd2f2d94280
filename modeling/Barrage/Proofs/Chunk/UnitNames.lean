import Barrage.Proofs.Chunk.UnitLines
import Barrage.Proofs.Expr.LinearForms
import Barrage.Proofs.Source.Reading

/-!
# The names of a unit

A unit makes names of three kinds: for lookups, for bindings and for conditions. They end in different marks and in
their numbers, and no name of the source has two underscores in a row, so that a made name is neither a parameter
nor a name of the text, and no two made names are equal. If the text is well typed over the parameters, each line
of the unit reads parameters and what the lines before it bind.

What a line can read is a matter of types: the bindings of the linear form are typed one after the other, each in
the scope that those before it leave, and a typed expression that binds nothing has no variables but those of its
scope.

## Main definitions

* `Linear.names` — the names that a linear form makes
* `Linear.Hygienic` — linear forms that make new and different names and have no nested bindings
* `Linear.Scoped` — linear forms that read nothing before it is bound

## Main results

* `Binding.Straight.mem_of_mem_reads` — what typed bindings read
* `Expr.Unambiguous.scoped_linear` — what the lines of a well-typed unit read
* `Expr.linear_hygienic` — the unit of a text that is accepted
-/

namespace Barrage

open Barrage.Expr

/-- The variables of a binding. -/
def Binding.reads (b : Binding) : List String := (b.guard.map Expr.vars).getD [] ++ b.value.vars

namespace Linear

/-- The names that a linear form makes, for lookups and for bindings. -/
def names (l : Linear) : List String := l.hoisted.map (·.name) ++ l.bindings.map (·.name)

/-- Linear forms that make different names, none of them one of those that are taken, and in which nothing is bound
but by the bindings themselves. -/
structure Hygienic (l : Linear) (taken : List String) : Prop where
  distinct : l.names.Nodup
  fresh : ∀ x ∈ l.names, x ∉ taken
  guards : ∀ b ∈ l.bindings, ∀ cond, b.guard = some cond → cond.lets = 0
  values : ∀ b ∈ l.bindings, b.value.lets = 0
  result : l.result.lets = 0

/-- Linear forms in which a binding reads parameters, lookups and bindings before it, and the result reads
parameters, lookups and bindings. -/
structure Scoped (l : Linear) (params : List String) : Prop where
  bindings : ∀ before b behind, l.bindings = before ++ b :: behind →
    ∀ x ∈ b.reads, x ∈ params ∨ x ∈ l.hoisted.map (·.name) ∨ x ∈ before.map (·.name)
  result : ∀ x ∈ l.result.vars, x ∈ params ∨ x ∈ l.names

end Linear

/-! ### What typed bindings read -/

namespace Expr

/-- A tree binds as many names as it has bindings. -/
theorem length_boundNames (e : Expr) : e.boundNames.length = e.lets := by
  induction e using treeInduction with
  | const | var => rfl
  | member inner field ih => exact ih
  | unary op inner ih => exact ih
  | binary op left right ihl ihr => rw [boundNames, List.length_append, ihl, ihr, lets]
  | branch cond yes no ihc ihy ihn =>
    rw [boundNames, List.length_append, List.length_append, ihc, ihy, ihn, lets]
  | bind name value body ihv ihb =>
    rw [boundNames, List.length_append, List.length_cons, ihv, ihb, lets]
  | call func args ih =>
    change (boundNamesList args).length = letsList args
    induction args with
    | nil => rfl
    | cons e es ihes =>
      rw [boundNamesList, List.length_append, ih e (by simp), ihes fun e he => ih e (by simp [he]), letsList]

theorem boundNames_of_lets {e : Expr} (h : e.lets = 0) : e.boundNames = [] := by
  rw [← List.length_eq_zero_iff, length_boundNames, h]

variable {scope : Scope} {ty : ValueType}

/-- A typed expression that binds nothing has no variables but those of its scope. -/
theorem Straight.mem_scope {e : Expr} (h : Straight scope e ty) (hlets : e.lets = 0) :
    ∀ x ∈ e.vars, x ∈ scope.map Prod.fst := by
  refine forall_mem_vars h.typed (fun b hb => List.mem_map_of_mem hb) ?_
  rw [boundNames_of_lets hlets]
  exact List.forall_mem_nil _

end Expr

namespace Binding.Straight

variable {scope scope' : Scope} {bs before behind : List Binding} {b : Binding}

/-- The scope after some bindings has their names and those of the scope before them. -/
theorem mem_scope (h : Straight scope bs scope') :
    ∀ x ∈ scope'.map Prod.fst, x ∈ scope.map Prod.fst ∨ x ∈ bs.map (·.name) := by
  induction h with
  | nil scope => exact fun x hx => .inl hx
  | cons guard value _ ih =>
    intro x hx
    rcases ih x hx with hold | hnew
    · rcases List.mem_cons.1 hold with rfl | hold
      · exact .inr (List.mem_cons_self ..)
      · exact .inl hold
    · exact .inr (List.mem_cons_of_mem _ hnew)

/-- The scope in which a binding among others is typed. -/
theorem exists_scope (h : Straight scope (before ++ b :: behind) scope') :
    ∃ scope₁ ty, Straight scope before scope₁ ∧
      (∀ cond, b.guard = some cond → Expr.Straight scope₁ cond .bool) ∧ Expr.Straight scope₁ b.value ty := by
  induction before generalizing scope with
  | nil =>
    cases h with
    | cons guard value _ => exact ⟨scope, _, .nil scope, guard, value⟩
  | cons first before ih =>
    cases h with
    | cons guard value rest =>
      obtain ⟨scope₁, ty, hbefore, hb⟩ := ih rest
      exact ⟨scope₁, ty, .cons guard value hbefore, hb⟩

/-- A bare binding among typed ones reads names of the scope and of the bindings before it. -/
theorem mem_of_mem_reads (h : Straight scope (before ++ b :: behind) scope') (hb : b.Bare) :
    ∀ x ∈ b.reads, x ∈ scope.map Prod.fst ∨ x ∈ before.map (·.name) := by
  obtain ⟨scope₁, ty, hbefore, hguard, hvalue⟩ := h.exists_scope
  refine List.forall_mem_append.2 ⟨fun x hx => ?_, fun x hx => ?_⟩
  · cases hcond : b.guard with
    | none =>
      rw [hcond] at hx
      cases hx
    | some cond =>
      rw [hcond] at hx
      exact hbefore.mem_scope x ((hguard cond hcond).mem_scope (hb.guard cond hcond).lets x hx)
  · exact hbefore.mem_scope x (hvalue.mem_scope hb.value.lets x hx)

end Binding.Straight

/-! ### Units -/

namespace Expr

variable {e : Expr}

/-- The parts of a unit have neither bindings nor objects. -/
theorem bare_linear (e : Expr) : e.linear.Bare := by
  rw [linear_eq]
  exact bare_linearize (objects_withNames _ _) _

theorem hoisted_linear (e : Expr) : e.linear.hoisted = e.lookups := by
  rw [linear_eq]
  rfl

/-- The names that bindings of a unit make are those of bindings and of conditions. -/
theorem madeNames_linear (e : Expr) :
    ∃ lets guards, MadeNames 0 lets 0 guards (e.linear.bindings.map (·.name)) := by
  obtain ⟨guards, h⟩ := madeNames_linearize e.hoist.1.flatten e.hoist.2
  exact ⟨_, guards, h⟩

/-- The names that a unit makes for lookups. -/
theorem exists_hoistedName {x : String} (hx : x ∈ e.linear.hoisted.map (·.name)) :
    ∃ object index, x = hoistedName object index := by
  rw [hoisted_linear] at hx
  obtain ⟨known, hknown, rfl⟩ := List.mem_map.1 hx
  obtain ⟨index, hindex⟩ := (declares_lookups e).exists_name hknown
  exact ⟨known.object, index, hindex⟩

/-- The names that a unit makes for bindings and conditions say what they are for. -/
theorem nameKind?_bindings {x : String} (hx : x ∈ e.linear.bindings.map (·.name)) : nameKind? x ≠ none := by
  obtain ⟨lets, guards, hnames⟩ := e.madeNames_linear
  rcases hnames.made x hx with ⟨source, number, rfl, -⟩ | ⟨number, rfl, -⟩
  · simp
  · simp

/-- The names that a unit makes are different. -/
theorem nodup_names_linear (e : Expr) : e.linear.names.Nodup := by
  obtain ⟨lets, guards, hnames⟩ := e.madeNames_linear
  have hhoisted : (e.linear.hoisted.map (·.name)).Nodup := by
    rw [hoisted_linear]
    exact (declares_lookups e).names_nodup
  refine List.nodup_append.2 ⟨hhoisted, hnames.nodup, ?_⟩
  rintro x hx _ hy rfl
  obtain ⟨object, index, rfl⟩ := exists_hoistedName hx
  -- Only names of bindings and of conditions have a mark before their number.
  exact nameKind?_bindings hy (nameKind?_hoistedName object index)

/-- No name of the source is one that a unit makes. -/
theorem notMem_names_linear {x : String} (h : hasDoubleUnderscore x.toList = false) : x ∉ e.linear.names := by
  intro hx
  rcases List.mem_append.1 hx with hx | hx
  · obtain ⟨object, index, rfl⟩ := exists_hoistedName hx
    rw [hasDoubleUnderscore_hoistedName] at h
    cases h
  · exact nameKind?_bindings hx (nameKind?_of_source h)

/-- Where no taken name has two underscores in a row, a unit is hygienic. -/
theorem hygienic_linear {taken : List String} (h : ∀ x ∈ taken, hasDoubleUnderscore x.toList = false) :
    e.linear.Hygienic taken where
  distinct := nodup_names_linear e
  fresh x hx htaken := notMem_names_linear (h x htaken) hx
  guards b hb cond hcond := (((bare_linear e).bindings b hb).guard cond hcond).lets
  values b hb := ((bare_linear e).bindings b hb).value.lets
  result := (bare_linear e).result.lets

/-- What is linearized has as many bindings as the expression. -/
theorem lets_hoist_flatten (e : Expr) : e.hoist.1.flatten.lets = e.lets := by
  rw [hoist_eq, flatten_withNames, ← length_boundNames, boundNames_withNames, boundNames_flatten,
    length_boundNames]

namespace Unambiguous

variable {params : List Param} {ty : ValueType}

/-- The lines of a unit that is typed over parameters read them and what the lines before them bind. -/
theorem scoped_linear (h : e.Unambiguous (Scope.of params) ty) : e.linear.Scoped (params.map (·.name)) := by
  obtain ⟨scope', hbindings, hresult, -⟩ :=
    h.straight_linear (P := fun _ => True) (Q := fun _ => True) (fun _ => trivial) (fun _ _ _ => trivial)
      fun _ _ => trivial
  have hunit : ∀ x ∈ (unitNames e HostRef.type (Scope.of params)).map Prod.fst,
      x ∈ params.map (·.name) ∨ x ∈ e.linear.hoisted.map (·.name) := by
    intro x hx
    rw [unitNames, List.map_append] at hx
    rcases List.mem_append.1 hx with hx | hx
    · rw [hoisted_linear]
      simpa [named, Function.comp_def] using Or.inr hx
    · simpa [Scope.of, Function.comp_def] using Or.inl hx
  constructor
  · intro before b behind hsplit x hx
    rw [hsplit] at hbindings
    have hbare : b.Bare := (bare_linear e).bindings b (by rw [hsplit]; simp)
    rcases hbindings.mem_of_mem_reads hbare x hx with hscope | hbefore
    · exact (hunit x hscope).imp_right .inl
    · exact .inr (.inr hbefore)
  · intro x hx
    rcases hbindings.mem_scope x (hresult.mem_scope (bare_linear e).result.lets x hx) with hscope | hbound
    · exact (hunit x hscope).imp_right (List.mem_append_left _)
    · exact .inr (List.mem_append_right _ hbound)

end Unambiguous

/-- The unit of a text that is accepted, over parameters without two underscores in a row: the names that it makes
are different, and neither names of parameters nor variables or bound names of the text; nothing is bound within
its lines; if the text is well typed over the parameters, each line reads parameters and what the lines before it
bind; and if the text has no bindings, the unit has none, and gives the tree with the names of the lookups in the
place of its objects. -/
theorem linear_hygienic {hosts : Hosts} {source : String} {params : List Param}
    (hparse : (parseIn hosts source).1 = .ok e)
    (hparams : ∀ p ∈ params, hasDoubleUnderscore p.name.toList = false) :
    e.linear.Hygienic (params.map (·.name) ++ e.vars ++ e.boundNames) ∧
      (∀ ty, e.infer params = .ok ty → e.linear.Scoped (params.map (·.name))) ∧
      (e.lets = 0 → e.linear = ⟨e.hoist.2, [], e.hoist.1.flatten⟩) := by
  have hsource := sourceNamed_of_parse hparse
  have hbound : ∀ x ∈ e.boundNames, hasDoubleUnderscore x.toList = false := fun x hx => (hsource.bound x hx).single
  refine ⟨hygienic_linear ?_, fun ty htyped => ?_, fun hlets => ?_⟩
  · refine List.forall_mem_append.2 ⟨List.forall_mem_append.2 ⟨?_, hsource.vars⟩, hbound⟩
    exact List.forall_mem_map.2 hparams
  · have hscope : ∀ b ∈ Scope.of params, hasDoubleUnderscore b.1.toList = false :=
      forall_mem_scope (P := fun x => hasDoubleUnderscore x.toList = false) hparams
    exact Unambiguous.scoped_linear ⟨htyped, hscope, hbound⟩
  · exact linearize_of_lets ((lets_hoist_flatten e).trans hlets) _

/-- A name that is bound twice on one side of a choice, behind the time of a timer. -/
theorem linear_hygienic_spin :
    let hosts := (Hosts.empty.timer "spin").2
    let spin : Expr := .member (.const (.timer ⟨0, "spin"⟩)) .elapsed
    let e : Expr := .branch (.binary .lt spin (.var "t"))
      (.bind "x" (.call .mul [.var "t", .var "t"]) (.bind "x" (.call .add [.var "x", .var "t"]) (.var "x")))
      (.var "t")
    (parseIn hosts "timer ( \"spin\" ) . elapsed < t ? let x = t * t in let x = x + t in x : t").1 = .ok e ∧
      e.linear.names = ["timer__0", "guard__g0", "x__l0", "x__l1"] ∧
      e.linear.Hygienic (["t"] ++ e.vars ++ e.boundNames) ∧ e.linear.Scoped ["t"] := by
  intro hosts spin e
  have ht : FreeName "t" := ⟨⟨.of_check (by decide), by decide⟩, by decide⟩
  have hx : FreeName "x" := ⟨⟨.of_check (by decide), by decide⟩, by decide⟩
  have hwritable : e.Writable hosts := by
    refine .branch (.binary _ (.member _ (.timer rfl)) (.var ht)) (.bind hx (.call (fun _ => rfl) ?_)
      (.bind hx (.call (fun _ => rfl) ?_) (.var hx))) (.var ht)
    · exact List.forall_mem_cons.2 ⟨.var ht, List.forall_mem_singleton.2 (.var ht)⟩
    · exact List.forall_mem_cons.2 ⟨.var hx, List.forall_mem_singleton.2 (.var ht)⟩
  obtain ⟨hexpr, hwell⟩ := hwritable.surface_cases
  have hparse : (parseIn hosts "timer ( \"spin\" ) . elapsed < t ? let x = t * t in let x = x + t in x : t").1 =
      .ok e := by
    have htext : e.surface.text = "timer ( \"spin\" ) . elapsed < t ? let x = t * t in let x = x + t in x : t" := by
      decide +kernel
    rw [← htext, hwell.parse_text.1 (by decide +kernel), hexpr]
  have hparams : ∀ p ∈ [(⟨"t", .float⟩ : Param)], hasDoubleUnderscore p.name.toList = false := by decide
  obtain ⟨hhygienic, hscoped, -⟩ := linear_hygienic hparse hparams
  exact ⟨hparse, by decide +kernel, hhygienic, hscoped .float rfl⟩

end Expr

end Barrage
