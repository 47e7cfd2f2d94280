import Barrage.Proofs.Chunk.UnitRuns
import Barrage.Proofs.Expr.TypeSoundness

/-!
# Calling recorded units

A recorded unit finds the objects of its expression under their names, and comes to what the expression with names
in the place of objects comes to, with the tolerant comparisons of floats. Over host objects that hold the objects of
the expression that is what the flattened expression comes to. A unit is called through its chunk, where nothing else
of the chunk is reached, and as a callable, which tests the types of arguments and result.

## Main definitions

* `Expr.ObjectsHeld` — host objects under whose names the objects of a tree are found
* `Expr.evalUnit` — what a unit comes to over the objects that it finds
* `Chunk.calledFunctions` — everything that a unit calls
* `Chunk.Keeps` — chunks that define nothing that units call, and have no statements of their own

## Main results

* `Expr.Unambiguous.evalUnit_eq` — a unit comes to what the tree does where the objects of the tree are held
* `Expr.Unambiguous.run_linear` — the linear form of a recorded expression comes to what its unit does
* `Expr.Unambiguous.serves_call` — so does the function of the unit
* `Expr.Unambiguous.call_unit` — calling the unit
-/

namespace Barrage

open Chunk Barrage.Expr

/-! ### Environments of units -/

namespace Expr

variable {scope : Scope} {env : Env}

/-- An environment of a scope fits it. -/
theorem Env.Typed.fits (h : env.Typed scope) : env.Fits scope := by
  intro x v hx
  induction h with
  | nil => cases hx
  | @cons b d env scope hbd _ ih =>
    obtain ⟨y, w⟩ := b
    obtain ⟨z, ty⟩ := d
    obtain ⟨rfl, hty⟩ : y = z ∧ w.type = ty := hbd
    rw [lookup_cons_ite] at hx ⊢
    split at hx
    · cases hx
      rw [if_pos ‹_›, hty]
    · rw [if_neg ‹_›]
      exact ih hx

/-- Whether an object of a tree is the one that is found under its name or id. -/
def Held (hosts : Hosts) : Value → Prop
  | .timer handle => hosts.timerSlot? handle.name = some handle.slot
  | .entity handle => hosts.entity? handle.id = some handle
  | _ => True

/-- Every host object of a tree is the one that is found under its name or id. -/
def ObjectsHeld (hosts : Hosts) (e : Expr) : Prop := ∀ v ∈ e.objects, Held hosts v

/-- A lookup of an object that is held finds it. -/
theorem Held.lookup {hosts : Hosts} {v : Value} (h : Held hosts v) {object : HostRef}
    (hobject : v.object? = some object) : object.Found hosts ∧ object.value hosts = v := by
  cases v with
  | timer handle =>
    cases hobject
    have hslot : hosts.timerSlot? handle.name = some handle.slot := h
    simp [HostRef.Found, HostRef.value, Hosts.timer, hslot]
  | entity handle =>
    cases hobject
    have hentity : hosts.entity? handle.id = some handle := h
    simp [HostRef.Found, HostRef.value, hentity]
  | _ => cases hobject

/-- The lookups of a tree are those of its objects. -/
theorem exists_object_of_mem_lookups {e : Expr} {known : Hoisted} (h : known ∈ e.lookups) :
    ∃ v ∈ e.objects, v.object? = some known.object := by
  have hall : ∀ (objects : List HostRef) (found : List Hoisted), known ∈ objects.foldl declare found →
      known ∈ found ∨ known.object ∈ objects := by
    intro objects
    induction objects with
    | nil => exact fun found h => .inl h
    | cons object objects ih =>
      intro found h
      rcases ih _ h with h | h
      · unfold declare at h
        split at h
        · exact .inl h
        · rcases List.mem_append.1 h with h | h
          · exact .inl h
          · cases List.mem_singleton.1 h
            exact .inr (by simp)
      · exact .inr (by simp [h])
  rcases hall _ _ h with h | h
  · cases h
  · exact List.mem_filterMap.1 h

/-- The types of the names of a unit and the values of those names go together. -/
theorem typed_unitNames (hosts : Hosts) (e : Expr) (h : env.Typed scope) :
    Env.Typed (unitNames e (HostRef.value hosts) env) (unitNames e HostRef.type scope) := by
  refine List.rel_append ?_ h
  refine List.forall₂_reverse_iff.2 (List.forall₂_map_right_iff.2 (List.forall₂_map_left_iff.2 ?_))
  refine List.forall₂_same.2 fun known _ => ⟨rfl, ?_⟩
  cases known.object <;> rfl

end Expr

/-- What a unit comes to over the objects that it finds: names stand for the objects, and the tree is flattened. -/
def Expr.evalUnit (order : FloatOrder) (hosts : Hosts) (e : Expr) (env : Env) : Except EvalError Value :=
  eval order hosts (unitNames e (HostRef.value hosts) env) (withNames e.lookups e.flatten)

/-- Every object of a tree is found under its name. -/
def Expr.ObjectsFound (hosts : Hosts) (e : Expr) : Prop := ∀ known ∈ e.lookups, known.object.Found hosts

theorem Expr.ObjectsHeld.found {e : Expr} {hosts : Hosts} (h : e.ObjectsHeld hosts) : e.ObjectsFound hosts := by
  intro known hknown
  obtain ⟨v, hv, hobject⟩ := exists_object_of_mem_lookups hknown
  exact ((h v hv).lookup hobject).1

namespace Expr.Unambiguous

variable {e : Expr} {params : List Param} {ty : ValueType} (h : e.Unambiguous (Scope.of params) ty)
  {args : List Value} (hargs : args.map Value.type = params.map (·.type)) {hosts : Hosts}

include h hargs

/-- Over host objects that hold the objects of the tree, a unit comes to what the tree does. -/
theorem evalUnit_eq (order : FloatOrder) (hheld : e.ObjectsHeld hosts) :
    e.evalUnit order hosts (Env.of params args) = eval order hosts (Env.of params args) e.flatten := by
  have htyped : (Env.of params args).Typed (Scope.of params) := Env.typed_of hargs
  have hyields : Yields ty (eval order hosts (Env.of params args) e.flatten) :=
    eval_yields (inferIn_flatten h.typed) htyped
  refine eval_withNames ?_ ?_ ?_ hyields
  · refine le_named_append (declares_lookups e) ?_
    have hlength : args.length = params.length := by simpa using congrArg List.length hargs
    have hnames := Env.names_of hlength
    intro b hb
    have hname : b.1 ∈ (params.map (·.name)).reverse := by
      rw [← hnames]
      exact List.mem_map_of_mem hb
    obtain ⟨p, hp, hpname⟩ := List.mem_map.1 (List.mem_reverse.1 hname)
    rw [← hpname]
    exact h.scope (p.name, p.type) (List.mem_reverse.2 (List.mem_map.2 ⟨p, hp, rfl⟩))
  · rw [objects_flatten]
    exact finds_unitNames fun v hv object hobject => ((hheld v hv).lookup hobject).2
  · rw [boundNames_flatten]
    exact h.bound

/-- What a unit comes to has the type of the tree. -/
theorem evalUnit_yields (order : FloatOrder) (hosts : Hosts) :
    Yields ty (e.evalUnit order hosts (Env.of params args)) :=
  eval_yields h.inferIn_unit (typed_unitNames hosts e (Env.typed_of hargs))

/-- The run of the linear form gives the value that the unit comes to, and ends in a fault of arithmetic if there is
none. -/
theorem run_linear (hosts : Hosts) :
    (∃ v, (e.linear.run .tolerant hosts (unitNames e (HostRef.value hosts) (Env.of params args))).map
        Prod.fst = .ok v ∧ e.evalUnit .tolerant hosts (Env.of params args) = .ok v) ∨
      ∃ err err', (e.linear.run .tolerant hosts
        (unitNames e (HostRef.value hosts) (Env.of params args))).map Prod.fst = .error err ∧
        err.isArithmetic ∧ e.evalUnit .tolerant hosts (Env.of params args) = .error err' := by
  have htyped : (Env.of params args).Typed (Scope.of params) := Env.typed_of hargs
  rw [evalUnit, linear_eq]
  rcases linearize_run .tolerant hosts e.lookups h.inferIn_unit (typed_unitNames hosts e htyped)
    h.nameKind?_vars with ⟨v, ran, hrun, hdone⟩ | ⟨err, hrun, harith, err', herr⟩
  · refine .inl ⟨v, by rw [hrun]; rfl, ?_⟩
    rw [← value_evalTraced letName, hdone]
    rfl
  · exact .inr ⟨err, err', by rw [hrun]; rfl, harith, herr⟩

end Expr.Unambiguous

/-! ### Functions of units -/

namespace Chunk

/-- Everything that a unit calls. -/
def calledFunctions : List String := printedFunctions ++ ["get_timer", "get_entity"]

/-- Chunks that define nothing that units call, and have no statements of their own. -/
structure Keeps (chunk : Chunk) : Prop where
  main : chunk.main = []
  called : ∀ name ∈ calledFunctions, ∀ count, chunk.find? name count = none

theorem Keeps.native {chunk : Chunk} (h : chunk.Keeps) (room : Nat) :
    (chunk.callsWithin (room + 1)).Native := by
  have hcall : ∀ name ∈ calledFunctions, ∀ args,
      (chunk.callsWithin (room + 1)).function name none args = Chunk.native name args := by
    intro name hname args
    simp only [callsWithin, h.called name hname, Option.toList_none, List.nil_append]
  refine ⟨fun name hname => hcall name (by simp [calledFunctions, hname]), fun object => hcall _ ?_⟩
  cases object with
  | timer name => exact (by decide : "get_timer" ∈ calledFunctions)
  | entity id => exact (by decide : "get_entity" ∈ calledFunctions)

/-- Calling a function of a chunk without statements of its own is running the function. -/
theorem Keeps.run_call {chunk : Chunk} (h : chunk.Keeps) {name : String} {f : Definition}
    {args : List Value} (hfind : chunk.find? name args.length = some f) (hosts : Hosts) :
    (chunk.call name args).run.run hosts =
      (settled (Term.evalBody chunk (chunk.callsWithin maxCalls)
        (f.params.zip (args.map Datum.value)).reverse f.body)).run.run hosts := by
  have hmain : (settled (Term.evalBody chunk (chunk.callsWithin maxCalls) [] chunk.main)).run.run hosts =
      (.ok .unit, hosts) := by
    rw [h.main, Term.evalBody]
    rfl
  rw [call, run_bind_of_ok hmain, hfind]
  change (f.run chunk (chunk.callsWithin maxCalls) none (args.map Datum.value)).run.run hosts = _
  rw [Definition.run, Option.map_none, Option.toList_none, List.append_nil]

end Chunk

namespace Term

/-- The data of values under their names. -/
theorem holds_map (senv : Expr.Env) : Env.Holds (senv.map fun b => (b.1, .value b.2)) senv := by
  intro x v hx
  induction senv with
  | nil => cases hx
  | cons b senv ih =>
    obtain ⟨y, w⟩ := b
    rw [lookup_cons_ite] at hx
    rw [List.map_cons, lookup_cons_ite]
    split at hx
    · cases hx
      rw [if_pos ‹_›]
    · rw [if_neg ‹_›]
      exact ih hx

/-- The data of the lookups and arguments of a unit. -/
theorem unitData_eq (e : Expr) (hosts : Hosts) (params : List Param) (args : List Value) :
    named (fun object => Datum.value (object.value hosts)) e.lookups ++
        ((params.map (·.name)).zip (args.map Datum.value)).reverse =
      (unitNames e (HostRef.value hosts) (Expr.Env.of params args)).map fun b => (b.1, .value b.2) := by
  simp [unitNames, named, Expr.Env.of, List.zip_map_right, Function.comp_def]

end Term

/-- The function of a unit, as its chunk was loaded. -/
def unitFunction (name : String) (e : Expr) (params : List Param) : Definition :=
  ⟨name, params.map (·.name), e.unitLines.map Line.simplified⟩

namespace Expr.Unambiguous

variable {e : Expr} {params : List Param} {ty : ValueType} (h : e.Unambiguous (Scope.of params) ty)
  {args : List Value} (hargs : args.map Value.type = params.map (·.type)) {hosts : Hosts}

include h hargs

/-- The function of a unit serves what the unit comes to over the objects that it finds. -/
theorem serves_call {chunk : Chunk} (hchunk : chunk.Keeps) {name : String}
    (hfind : chunk.find? name params.length = some (unitFunction name e params))
    (hobjects : e.ObjectsFound hosts) :
    Serves hosts (chunk.call name args) Datum.value (e.evalUnit .tolerant hosts (Env.of params args)) := by
  have hlength : args.length = params.length := by simpa using congrArg List.length hargs
  have htyped : (Env.of params args).Typed (Scope.of params) := Env.typed_of hargs
  obtain ⟨scope', hbindings, hresult, -⟩ := h.straight_linear (P := fun _ => True) (Q := fun _ => True)
    (fun _ => trivial) (fun _ _ _ => trivial) fun _ _ => trivial
  have hfound : ∀ known ∈ e.linear.hoisted, known.object.Found hosts := by
    intro known hknown
    rw [linear_eq] at hknown
    exact hobjects known hknown
  have hholds : Term.Env.Holds
      (named (fun object => Datum.value (object.value hosts)) e.linear.hoisted ++
        ((params.map (·.name)).zip (args.map Datum.value)).reverse)
      (unitNames e (HostRef.value hosts) (Env.of params args)) := by
    rw [linear_eq]
    exact Term.unitData_eq e hosts params args ▸ Term.holds_map _
  have hlines : Serves hosts (settled (Term.evalBody chunk (chunk.callsWithin maxCalls)
      ((params.map (·.name)).zip (args.map Datum.value)).reverse (e.unitLines.map Line.simplified)))
      Datum.value ((e.linear.run .tolerant hosts
        (unitNames e (HostRef.value hosts) (Env.of params args))).map Prod.fst) :=
    Term.serves_lines (hchunk.native 63) hfound hbindings hresult hholds (typed_unitNames hosts e htyped).fits
  have hserves : Serves hosts (settled (Term.evalBody chunk (chunk.callsWithin maxCalls)
      ((params.map (·.name)).zip (args.map Datum.value)).reverse (e.unitLines.map Line.simplified)))
      Datum.value (e.evalUnit .tolerant hosts (Env.of params args)) := by
    rcases h.run_linear hargs hosts with ⟨v, hrun, heval⟩ | ⟨err, err', hrun, harith, heval⟩
    · rw [heval]
      rwa [hrun] at hlines
    · rw [heval]
      rw [hrun] at hlines
      refine hlines.congr (fun a ha => nomatch ha) fun err'' _ _ => ⟨err, rfl, ?_⟩
      rintro slot rfl
      exact harith
  rw [← hlength] at hfind
  unfold Serves at hserves ⊢
  rw [hchunk.run_call hfind]
  exact hserves

/-- A unit, called over fitting arguments where its objects are found, gives the value that it comes to with the
tolerant comparisons of floats, or fails as served units do if there is none. -/
theorem call_unit {unit : BakedUnit} (hchunk : unit.chunk.Keeps)
    (hfind : unit.chunk.find? unit.name params.length = some (unitFunction unit.name e params))
    (hobjects : e.ObjectsFound hosts) :
    unit.call args hosts =
      ((e.evalUnit .tolerant hosts (Env.of params args)).mapError fun _ => .baked unit.name, hosts) := by
  have hserves := h.serves_call hargs hchunk hfind hobjects
  have hyields := h.evalUnit_yields hargs .tolerant hosts
  unfold BakedUnit.call
  cases heval : e.evalUnit .tolerant hosts (Env.of params args) with
  | ok v =>
    rw [heval] at hserves
    have hrun : (unit.chunk.call unit.name args).run.run hosts = (.ok (.value v), hosts) := hserves
    rw [hrun]
    rfl
  | error err =>
    rw [heval] at hserves hyields
    have hrun : (unit.chunk.call unit.name args).run.run hosts = (.error .fault, hosts) := by
      refine hserves ?_
      rintro slot rfl
      exact hyields
    rw [hrun]
    rfl

end Expr.Unambiguous

end Barrage
