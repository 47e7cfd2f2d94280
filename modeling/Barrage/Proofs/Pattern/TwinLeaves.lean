import Barrage.Proofs.Bake.ServedCalls
import Barrage.Proofs.Pattern.Replay

/-!
# Expressions of patterns and their units

An expression of a pattern is called with the time and the hit points, and yields a number or a truth value. Where it is
played directly its code runs over hosts that have had all timers since the scripts were read; where it is served its
unit runs over hosts that have those timers that some unit has asked for. The two calls cannot be told apart as long as a
timer that is asked for the first time stands at zero.

## Main definitions

* `Callable.Twins` — callables that cannot be told apart over hosts that lack timers
* `TwinPair` — two such callables

## Main results

* `Leaf.twins_of_loadedAs` — the code of an expression and the unit that it was recorded as
-/

namespace Barrage

open Barrage.Expr

/-- Callables that are called with two numbers and cannot be told apart: the first over hosts that all its timers were
made in, the second over hosts that may lack some of them. A timer that is missing has to stand at zero, for it is made
by the call, and afterwards none is missing. -/
structure Callable.Twins (base : Hosts) (c c' : Callable) : Prop where
  call : ∀ (args : List Value) {hosts fewer : Hosts}, args.map Value.type = [.float, .float] → base.Aligned hosts →
    hosts.Covers fewer →
    (∀ handle ∈ c.timers, fewer.timer? handle.name = none →
      hosts.timer? handle.name = some (Timer.new handle.name)) →
    ∃ later, hosts.Covers later ∧ (∀ handle ∈ c.timers, (later.timer? handle.name).isSome) ∧
      (∀ name, (fewer.timer? name).isSome → (later.timer? name).isSome) ∧
      ((∃ v, c.invoke args hosts = (.ok v, hosts) ∧ c'.invoke args fewer = (.ok v, later)) ∨
        ∃ e e', c.invoke args hosts = (.error e, hosts) ∧ c'.invoke args fewer = (.error e', later))

/-- Two callables that cannot be told apart. -/
structure TwinPair (base : Hosts) where
  direct : Callable
  served : Callable
  twins : Callable.Twins base direct served

/-- What cannot be called with two numbers fails in the same way over all hosts. -/
instance (base : Hosts) : Nonempty (TwinPair base) := by
  let c : Callable := ⟨⟨[], .bool⟩, [], .code (.const (.bool true))⟩
  refine ⟨⟨c, c, ⟨fun args {hosts fewer} htypes _ hcovers _ => ?_⟩⟩⟩
  have hargs : args.length ≠ 0 := by
    have hlength := congrArg List.length htypes
    rw [List.length_map] at hlength
    exact hlength ▸ Nat.succ_ne_zero 1
  have hinvoke (hosts : Hosts) : c.invoke args hosts = (.error (.arity 0 args.length), hosts) := if_pos hargs
  exact ⟨fewer, hcovers, List.forall_mem_nil _, fun _ h => h, .inr ⟨_, _, hinvoke hosts, hinvoke fewer⟩⟩

/-- Objects of a tree are held in all hosts that find the same handles. -/
theorem Expr.ObjectsHeld.aligned {e : Expr} {base hosts : Hosts} (h : e.ObjectsHeld base)
    (halign : base.Aligned hosts) : e.ObjectsHeld hosts := by
  intro v hv
  have hheld := h v hv
  cases v with
  | timer handle => exact (halign.timers handle.name).trans hheld
  | entity handle => exact (halign.entities handle.id).trans hheld
  | _ => trivial

namespace Leaf

variable {x : ValueType × String} {e : Expr} {code : Code} {unit : BakedUnit} {base : Hosts}

theorem unambiguous_of_accepts (h : (Leaf.request x).Accepts e) : e.Unambiguous (Scope.of Leaf.params) x.1 := by
  have hscope : ((Scope.of Leaf.params).filter fun b => !hasDoubleUnderscore b.1.toList) = Scope.of Leaf.params := by
    decide
  rw [← hscope]
  exact h.unambiguous

/-- The timers of the code of an expression are those that its unit looks up. -/
theorem timer_mem_lookups {scope : List String} (hcode : e.flatten.compile scope = .ok code) (name : String) :
    HostRef.timer name ∈ e.lookups.map (·.object) ↔ ∃ handle ∈ code.timers, handle.name = name := by
  rw [e.names_lookups.mem_iff]
  constructor
  · rintro ⟨v, hv, hobject⟩
    cases v <;> cases hobject
    rename_i handle
    exact ⟨handle, (mem_timers_iff hcode handle).2 (by rwa [objects_flatten]), rfl⟩
  · rintro ⟨handle, hhandle, rfl⟩
    exact ⟨.timer handle, by rw [← objects_flatten]; exact (mem_timers_iff hcode handle).1 hhandle, rfl⟩

/-- The code of an expression that compares no floats, and the unit that it was recorded as. -/
theorem twins_of_loadedAs (haccepts : (Leaf.request x).Accepts e) (htype : x.1 ≠ .timer)
    (hfloats : e.comparesFloats (Scope.of Leaf.params) = false) (hheld : e.ObjectsHeld base)
    (hcode : e.flatten.compile (Leaf.params.map (·.name)).reverse = .ok code) {file : FileId} {place : Nat}
    (hloaded : RecordedUnit.LoadedAs ((Leaf.request x).recordedUnit e file place, e.unitLines) unit) :
    Callable.Twins base ((Leaf.request x).callable (.code code)) ((Leaf.request x).callable (.unit unit)) := by
  constructor
  intro args hosts fewer htypes halign hcovers hmissing
  have hheld := hheld.aligned halign
  have hargs : args.map Value.type = Leaf.params.map (·.type) := htypes
  have hlength : args.length = Leaf.params.length := by simpa using congrArg List.length hargs
  have hunambiguous := unambiguous_of_accepts haccepts
  obtain ⟨hall, hlater, hobjects, hkept⟩ := hcovers.askAll (e.lookups.map (·.object))
    (fun name hname hnone => by
      obtain ⟨handle, hhandle, rfl⟩ := (timer_mem_lookups hcode name).1 hname
      exact hmissing handle hhandle hnone) fun id hid => by
      obtain ⟨v, hv, hobject⟩ := (e.names_lookups.mem_iff _).1 hid
      exact ((hheld v hv).lookup hobject).1
  have hfound : e.ObjectsFound (HostRef.askAll fewer (e.lookups.map (·.object))).2 :=
    fun known hknown => HostRef.found_askAll hall _ (List.mem_map_of_mem hknown)
  refine ⟨_, hlater, fun handle hhandle => hobjects _ ((timer_mem_lookups hcode _).2 ⟨handle, hhandle, rfl⟩), hkept, ?_⟩
  -- What the code comes to is what the unit comes to over the hosts of the code.
  have hdirect : ((Leaf.request x).callable (.code code)).invoke args hosts =
      ((code.run .exact hosts args).map Prod.fst, hosts) := Request.invoke_compiled haccepts.check hcode hargs
  have htolerant : (code.run .tolerant hosts args).map Prod.fst = (code.run .exact hosts args).map Prod.fst :=
    Request.run_tolerant haccepts.check hcode hargs hfloats
  rw [← htolerant, Code.run_eq_eval hcode hlength, ← hunambiguous.evalUnit_eq hargs .tolerant hheld] at hdirect
  have hcall : unit.call args fewer = _ := BakedUnit.call_askAll hloaded hlength hall
  rw [hunambiguous.call_unit hargs hloaded.keeps (hloaded.name ▸ hloaded.found) hfound] at hcall
  have hrun : Callable.runBody ((Leaf.request x).callable (.unit unit)).body
      (((Leaf.request x).callable (.unit unit)).bound ++ args) fewer = _ := hcall
  have hserved := @Callable.invoke_eq ((Leaf.request x).callable (.unit unit)) args fewer hargs
  rw [hrun] at hserved
  have henv : (Env.of Leaf.params args).Alike hosts (HostRef.askAll fewer (e.lookups.map (·.object))).2
      (Env.of Leaf.params args) := Env.alike_refl fun b hb => by
    have hmem : b.2.type ∈ args.map Value.type :=
      List.mem_map_of_mem (List.of_mem_zip (List.mem_reverse.1 hb : (b.1, b.2) ∈ _)).2
    rw [htypes] at hmem
    intro htimer
    simp [htimer] at hmem
  have hyields := hunambiguous.evalUnit_yields hargs .tolerant hosts
  have hrel := Expr.evalUnit_alike .tolerant hlater hheld.found hfound henv
  cases hv : e.evalUnit .tolerant hosts (Env.of Leaf.params args) with
  | error err =>
    rw [hv] at hrel hdirect
    generalize e.evalUnit .tolerant _ (Env.of Leaf.params args) = served at hrel hserved
    cases hrel with
    | error => exact .inr ⟨_, _, hdirect, hserved⟩
  | ok v =>
    rw [hv] at hrel hdirect hyields
    have hresult : v.type = x.1 := hyields
    generalize e.evalUnit .tolerant _ (Env.of Leaf.params args) = served at hrel hserved
    cases hrel with
    | ok halike =>
      obtain rfl := halike.eq (hresult ▸ htype)
      refine .inl ⟨v, hdirect, hserved.trans ?_⟩
      exact if_pos hresult

end Leaf

end Barrage
