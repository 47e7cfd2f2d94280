import Mathlib.Data.List.Induction
import Barrage.Proofs.Expr.LinearForms

/-!
# Objects after lookups

Hoisting loses nothing: as long as the objects of a tree differ in what they are found by, each lookup stands for
one object of the tree, and with the objects back in the place of the names the tree is as it was. Nor does it
leave anything: the objects are listed once each, in the order in which the tree first has them, and no object is
left, so that there is nothing to hoist once more, and everything can be printed.

Objects are constants, so that no binding can capture anything when they are put back; but a binding of the source
could hide the name of a lookup if it had that name.

## Main definitions

* `Expr.substitute` — a tree with constants in the place of free variables
* `Expr.declared` — the object of a tree that a name was declared for

## Main results

* `Expr.declareAll_nil` — the list of lookups
* `Expr.substitute_withNames` — the tree with the objects back in their places
* `Expr.hoist_restores` — hoisting is lossless and complete
-/

namespace Barrage.Expr

/-! ### The list of lookups -/

theorem eraseDups_concat (keys : List HostRef) (object : HostRef) :
    (keys ++ [object]).eraseDups =
      if object ∈ keys.eraseDups then keys.eraseDups else keys.eraseDups ++ [object] := by
  rw [List.eraseDups_append]
  by_cases hold : object ∈ keys
  · simp [List.removeAll, hold]
  · simp [List.removeAll, hold, List.eraseDups_cons]

/-- Lookups that are named by their places, after one more object has been met. -/
theorem declare_mapIdx (keys : List HostRef) (object : HostRef) :
    declare (keys.mapIdx fun i known => ⟨hoistedName known i, known⟩) object =
      (if object ∈ keys then keys else keys ++ [object]).mapIdx fun i known => ⟨hoistedName known i, known⟩ := by
  have hlists : Lists (keys.mapIdx fun i known => (⟨hoistedName known i, known⟩ : Hoisted)) object ↔
      object ∈ keys := by
    simp [Lists, List.mem_iff_getElem]
  unfold declare
  split
  · rename_i known hfind
    rw [if_pos (hlists.1 (find?_isSome_iff.1 (by rw [hfind]; rfl)))]
  · rename_i hfind
    have hnew : object ∉ keys := by
      intro hmem
      have := find?_isSome_iff.2 (hlists.2 hmem)
      rw [hfind] at this
      cases this
    rw [if_neg hnew, List.mapIdx_concat, List.length_mapIdx]

/-- Each object is listed once, where it is met first, and is named by its place in the list. -/
theorem declareAll_nil (values : List Value) :
    declareAll [] values = (values.filterMap Value.object?).eraseDups.mapIdx fun i object =>
      ⟨hoistedName object i, object⟩ := by
  unfold declareAll
  induction values.filterMap Value.object? using List.reverseRecOn with
  | nil => rfl
  | append_singleton keys object ih =>
    rw [List.foldl_append, List.foldl_cons, List.foldl_nil, ih, declare_mapIdx, eraseDups_concat]

/-! ### Objects in the place of names -/

mutual

/-- A tree with constants in the place of some of its free variables. -/
def substitute (values : String → Option Value) : Expr → Expr
  | const value => const value
  | var name => ((values name).map const).getD (var name)
  | member inner field => member (substitute values inner) field
  | unary op inner => unary op (substitute values inner)
  | binary op left right => binary op (substitute values left) (substitute values right)
  | call func args => call func (substituteList values args)
  | branch cond yes no => branch (substitute values cond) (substitute values yes) (substitute values no)
  | bind name value body =>
    bind name (substitute values value) (substitute (fun x => if x = name then none else values x) body)

/-- Trees with constants in the place of some of their free variables. -/
def substituteList (values : String → Option Value) : List Expr → List Expr
  | [] => []
  | e :: es => substitute values e :: substituteList values es

end

/-- The first object of a tree that is found by the lookup with a name. -/
def declared (e : Expr) (name : String) : Option Value :=
  (e.hoist.2.find? (·.name == name)).bind fun known => e.objects.find? (·.object? == some known.object)

/-- Values for the names of the objects among some values: the objects themselves. No name of the source has a
value. -/
structure Restores (found : List Hoisted) (values : String → Option Value) (objects : List Value) : Prop where
  plain : ∀ x, hasDoubleUnderscore x.toList = false → values x = none
  object : ∀ v ∈ objects, ∀ object, v.object? = some object →
    hasDoubleUnderscore (nameIn found object).toList = true ∧ values (nameIn found object) = some v

namespace Restores

variable {found : List Hoisted} {values : String → Option Value} {objects objects' : List Value}

theorem mono (h : Restores found values objects) (hsub : ∀ v ∈ objects', v ∈ objects) :
    Restores found values objects' :=
  ⟨h.plain, fun v hv => h.object v (hsub v hv)⟩

/-- A binding of the source hides no lookup. -/
theorem hide (h : Restores found values objects) {name : String} (hname : hasDoubleUnderscore name.toList = false) :
    Restores found (fun x => if x = name then none else values x) objects where
  plain x hx := by
    split
    · rfl
    · exact h.plain x hx
  object v hv object hobject := by
    obtain ⟨hunder, hvalue⟩ := h.object v hv object hobject
    refine ⟨hunder, ?_⟩
    rw [if_neg, hvalue]
    rintro rfl
    rw [hname] at hunder
    cases hunder

end Restores

/-- A tree comes back if the objects are put in the place of their names. -/
theorem substitute_withNames {found : List Hoisted} {values : String → Option Value} {e : Expr}
    (h : Restores found values e.objects) (hvars : ∀ x ∈ e.vars, hasDoubleUnderscore x.toList = false)
    (hbound : ∀ x ∈ e.boundNames, hasDoubleUnderscore x.toList = false) :
    substitute values (withNames found e) = e := by
  induction e using treeInduction generalizing values with
  | const value =>
    unfold withNames
    cases hobject : value.object? with
    | none => rfl
    | some object =>
      have hvalue := (h.object value (by simp [objects, hobject]) object hobject).2
      simp only [substitute, hvalue, Option.map_some, Option.getD_some]
  | var name =>
    rw [withNames, substitute, h.plain name (hvars name (by simp [vars]))]
    rfl
  | member inner field ih => exact congrArg (member · field) (ih h hvars hbound)
  | unary op inner ih => exact congrArg (unary op) (ih h hvars hbound)
  | binary op left right ihl ihr =>
    obtain ⟨hvl, hvr⟩ := List.forall_mem_append.1 hvars
    obtain ⟨hbl, hbr⟩ := List.forall_mem_append.1 hbound
    exact congrArg₂ (binary op) (ihl (h.mono fun _ => List.mem_append_left _) hvl hbl)
      (ihr (h.mono fun _ => List.mem_append_right _) hvr hbr)
  | branch cond yes no ihc ihy ihn =>
    obtain ⟨hvcy, hvn⟩ := List.forall_mem_append.1 hvars
    obtain ⟨hvc, hvy⟩ := List.forall_mem_append.1 hvcy
    obtain ⟨hbcy, hbn⟩ := List.forall_mem_append.1 hbound
    obtain ⟨hbc, hby⟩ := List.forall_mem_append.1 hbcy
    have hcy : Restores found values (cond.objects ++ yes.objects) := h.mono fun _ => List.mem_append_left _
    rw [withNames, substitute, ihc (hcy.mono fun _ => List.mem_append_left _) hvc hbc,
      ihy (hcy.mono fun _ => List.mem_append_right _) hvy hby, ihn (h.mono fun _ => List.mem_append_right _) hvn hbn]
  | bind name value body ihv ihb =>
    obtain ⟨hvv, hvb⟩ := List.forall_mem_append.1 hvars
    obtain ⟨hname, hbound⟩ := List.forall_mem_cons.1 hbound
    obtain ⟨hbv, hbb⟩ := List.forall_mem_append.1 hbound
    have hbody : Restores found values body.objects := h.mono fun _ => List.mem_append_right _
    exact congrArg₂ (bind name) (ihv (h.mono fun _ => List.mem_append_left _) hvv hbv)
      (ihb (hbody.hide hname) hvb hbb)
  | call func args ih =>
    refine congrArg (call func) ?_
    change Restores found values (objectsList args) at h
    change ∀ x ∈ varsList args, _ at hvars
    change ∀ x ∈ boundNamesList args, _ at hbound
    induction args with
    | nil => rfl
    | cons e es ihes =>
      obtain ⟨hve, hves⟩ := List.forall_mem_append.1 hvars
      obtain ⟨hbe, hbes⟩ := List.forall_mem_append.1 hbound
      exact congrArg₂ List.cons (ih e (by simp) (h.mono fun _ => List.mem_append_left _) hve hbe)
        (ihes (fun e he => ih e (by simp [he])) (h.mono fun _ => List.mem_append_right _) hves hbes)

/-- A lookup among others with different names is found by its name. -/
theorem find?_name {found : List Hoisted} {known : Hoisted} (hnodup : (found.map (·.name)).Nodup)
    (h : known ∈ found) : found.find? (·.name == known.name) = some known := by
  obtain ⟨first, hfirst⟩ : ∃ first, found.find? (·.name == known.name) = some first := by
    rw [← Option.isSome_iff_exists, List.find?_isSome]
    exact ⟨known, h, beq_self_eq_true _⟩
  have hname : first.name = known.name := by simpa using List.find?_some hfirst
  rw [hfirst, List.inj_on_of_nodup_map hnodup (List.mem_of_find?_eq_some hfirst) h hname]

/-- If the objects of a tree differ in what they are found by, each declared name stands for one of them. -/
theorem restores_declared {e : Expr} (hkeys : ∀ v ∈ e.objects, ∀ w ∈ e.objects, v.object? = w.object? → v = w) :
    Restores e.lookups e.declared e.objects where
  plain x hx := by
    have hnone : e.hoist.2.find? (·.name == x) = none := by
      rw [hoist_eq, List.find?_eq_none]
      intro known hknown heq
      obtain ⟨index, hindex⟩ := (declares_lookups e).exists_name hknown
      rw [← beq_iff_eq.1 heq, hindex, hasDoubleUnderscore_hoistedName] at hx
      cases hx
    rw [declared, hnone, Option.bind_none]
  object v hv object hobject := by
    have hlists : Lists e.lookups object := lists_declareAll [] hv hobject
    obtain ⟨known, hknown, rfl, hname⟩ := exists_nameIn hlists
    obtain ⟨index, hindex⟩ := (declares_lookups e).exists_name hknown
    refine ⟨by rw [hname, hindex]; exact hasDoubleUnderscore_hoistedName _ _, ?_⟩
    have hfind : e.hoist.2.find? (·.name == known.name) = some known := by
      rw [hoist_eq]
      exact find?_name (declares_lookups e).names_nodup hknown
    obtain ⟨w, hw⟩ : ∃ w, e.objects.find? (·.object? == some known.object) = some w := by
      rw [← Option.isSome_iff_exists, List.find?_isSome]
      exact ⟨v, hv, by rw [hobject, beq_self_eq_true]⟩
    -- The first object with this lookup is the one at hand, since no other has it.
    have hsame : w = v := by
      refine hkeys w (List.mem_of_find?_eq_some hw) v hv ?_
      rw [hobject]
      simpa using List.find?_some hw
    rw [hname, declared, hfind, Option.bind_some, hw, hsame]

/-! ### Nothing is left -/

/-- Without objects there is nothing to replace. -/
theorem withNames_of_objects {e : Expr} (found : List Hoisted) (h : e.objects = []) : withNames found e = e := by
  induction e using treeInduction with
  | const value =>
    cases value with
    | timer | entity => cases h
    | _ => rfl
  | var name => rfl
  | member inner field ih => exact congrArg (member · field) (ih h)
  | unary op inner ih => exact congrArg (unary op) (ih h)
  | binary op left right ihl ihr =>
    obtain ⟨hl, hr⟩ := List.append_eq_nil_iff.1 h
    exact congrArg₂ (binary op) (ihl hl) (ihr hr)
  | branch cond yes no ihc ihy ihn =>
    obtain ⟨hcy, hn⟩ := List.append_eq_nil_iff.1 h
    obtain ⟨hc, hy⟩ := List.append_eq_nil_iff.1 hcy
    rw [withNames, ihc hc, ihy hy, ihn hn]
  | bind name value body ihv ihb =>
    obtain ⟨hv, hb⟩ := List.append_eq_nil_iff.1 h
    exact congrArg₂ (bind name) (ihv hv) (ihb hb)
  | call func args ih =>
    refine congrArg (call func) ?_
    change objectsList args = [] at h
    induction args with
    | nil => rfl
    | cons e es ihes =>
      obtain ⟨he, hes⟩ := List.append_eq_nil_iff.1 h
      exact congrArg₂ List.cons (ih e (by simp) he) (ihes (fun e he => ih e (by simp [he])) hes)

theorem hoist_of_objects {e : Expr} (h : e.objects = []) : e.hoist = (e, []) := by
  rw [hoist_eq, withNames_of_objects _ h, lookups, h]
  rfl

theorem hoist_flatten (e : Expr) : e.flatten.hoist = (e.hoist.1.flatten, e.hoist.2) := by
  rw [hoist_eq, hoist_eq, flatten_withNames, lookups, lookups, objects_flatten]

/-- Hoisting is lossless and complete for a tree of which no two objects are found by the same lookup and no
variable or bound name has two underscores in a row. No object is left; the lookups are those of the objects, once
each and in the order in which they are met, and named by it; with the objects in the place of the declared names
the tree is as it was; nested calls can be joined before or afterwards; hoisting once more changes nothing and
declares nothing; and the linear form is printed, whether nested calls were joined or not. -/
theorem hoist_restores {e : Expr} (hkeys : ∀ v ∈ e.objects, ∀ w ∈ e.objects, v.object? = w.object? → v = w)
    (hvars : ∀ x ∈ e.vars, hasDoubleUnderscore x.toList = false)
    (hbound : ∀ x ∈ e.boundNames, hasDoubleUnderscore x.toList = false) :
    e.hoist.1.objects = [] ∧
      e.hoist.2 = ((e.objects.filterMap Value.object?).eraseDups.mapIdx fun i object =>
        ⟨hoistedName object i, object⟩) ∧
      e.hoist.1.substitute e.declared = e ∧
      e.flatten.hoist = (e.hoist.1.flatten, e.hoist.2) ∧
      e.hoist.1.hoist = (e.hoist.1, []) ∧
      (∃ text, (e.hoist.1.linearize e.hoist.2).print = .ok text) ∧
      ∃ text, (e.hoist.1.flatten.linearize e.hoist.2).print = .ok text := by
  have hobjects : e.hoist.1.objects = [] := by
    rw [hoist_eq]
    exact objects_withNames _ _
  refine ⟨hobjects, ?_, ?_, hoist_flatten e, hoist_of_objects hobjects, ?_, ?_⟩
  · rw [hoist_eq]
    exact declareAll_nil e.objects
  · rw [hoist_eq]
    exact substitute_withNames (restores_declared hkeys) hvars hbound
  · exact (bare_linearize hobjects _).exists_print
  · exact (bare_linearize ((objects_flatten _).trans hobjects) _).exists_print

/-- A sum that reads a timer twice and an entity in between, below a binding. -/
theorem hoist_restores_twice :
    let spin : Expr := member (const (.timer ⟨0, "spin"⟩)) .elapsed
    let boss : Expr := member (const (.entity ⟨0, "boss"⟩)) .hp
    let e : Expr := bind "x" spin (call .add [call .add [boss, spin], var "x"])
    let hoisted : List Hoisted := [⟨"timer__0", .timer "spin"⟩, ⟨"entity__1", .entity "boss"⟩]
    e.hoist.2 = hoisted ∧ e.hoist.1.substitute e.declared = e ∧ e.flatten.hoist = (e.hoist.1.flatten, hoisted) ∧
      e.hoist.1.hoist = (e.hoist.1, []) ∧ ∃ text, (e.hoist.1.linearize hoisted).print = .ok text := by
  intro spin boss e hoisted
  have hkeys : ∀ v ∈ e.objects, ∀ w ∈ e.objects, v.object? = w.object? → v = w := by
    simp [e, spin, boss, objects, objectsList, Value.object?]
  have hhoisted : e.hoist.2 = hoisted := by decide
  obtain ⟨-, -, hsubstitute, hflatten, hagain, hprint, -⟩ := hoist_restores hkeys (by decide) (by decide)
  rw [hhoisted] at hflatten hprint
  exact ⟨hhoisted, hsubstitute, hflatten, hagain, hprint⟩

end Barrage.Expr
