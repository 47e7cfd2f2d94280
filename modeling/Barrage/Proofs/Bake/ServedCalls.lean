import Barrage.Proofs.Bake.AskedObjects
import Barrage.Proofs.Bake.ReadObjects
import Barrage.Proofs.Bake.RoundTrip
import Barrage.Proofs.Expr.CoveredHosts

/-!
# Calls of units over hosts that lack timers

The code of an expression holds the handles of its timers, which came into being when the text was read. The unit that
is served in its place looks its timers up whenever it is called, and makes those that do not exist. So it is called
over hosts that may lack timers, and in the end it has made all those that its expression names. Provided that a timer
which is made stands where the timer of the code stands, at zero, both calls give the same value, or both fail, and the
hosts of the code go on to have everything that those of the unit have.

## Main definitions

* `Code.timers`, `Callable.timers` — the timers that code holds

## Main results

* `BakedUnit.call_askAll` — a unit is called as if its objects had been looked up before
* `Hosts.Covers.askAll` — what looking objects up makes of hosts that lack timers
* `Expr.evalUnit_alike` — what a unit comes to, as told by hosts that lack timers
-/

namespace Barrage

open Chunk Barrage.Expr

/-! ### Objects that are looked up once more -/

theorem Hosts.Grows.timer_eq {hosts later : Hosts} {name : String} (h : (hosts.timer name).2.Grows later) :
    later.timer name = ((hosts.timer name).1, later) := by
  have hslot := h.timerSlot? (hosts.timerSlot?_timer name)
  rw [hosts.name_timer] at hslot
  have hname := hosts.name_timer name
  generalize (hosts.timer name).1 = handle at hslot hname
  subst hname
  simp only [timer, hslot]

namespace HostRef

variable {hosts later : Hosts} {object : HostRef} {objects : List HostRef}

theorem grows_ask (hosts : Hosts) (object : HostRef) : hosts.Grows (object.ask hosts).2 := by
  cases object with
  | timer name => exact hosts.grows_timer name
  | entity id => exact .refl hosts

theorem grows_askAll (hosts : Hosts) (objects : List HostRef) : hosts.Grows (askAll hosts objects).2 := by
  induction objects generalizing hosts with
  | nil => exact .refl hosts
  | cons object objects ih =>
    rw [askAll]
    split
    · exact (grows_ask hosts object).trans (ih _)
    · exact grows_ask hosts object

/-- An object that was looked up is found later, and it is the same. -/
theorem ask_later (hfound : (object.ask hosts).1 = true) (h : (object.ask hosts).2.Grows later) :
    object.ask later = (true, later) ∧ object.value later = object.value hosts := by
  cases object with
  | timer name =>
    have htimer : later.timer name = ((hosts.timer name).1, later) := h.timer_eq
    rw [ask, value, value, htimer]
    exact ⟨rfl, rfl⟩
  | entity id =>
    have hentity : later.entity? id = hosts.entity? id := h.entity? id
    rw [ask, value, value, hentity]
    exact ⟨Prod.ext hfound rfl, rfl⟩

/-- Objects that were all looked up are found. -/
theorem found_askAll (h : (askAll hosts objects).1 = true) : ∀ object ∈ objects, object.Found (askAll hosts objects).2 := by
  induction objects generalizing hosts with
  | nil => exact List.forall_mem_nil _
  | cons object objects ih =>
    rw [askAll] at h ⊢
    by_cases hfound : (object.ask hosts).1 = true
    · rw [if_pos hfound] at h ⊢
      refine List.forall_mem_cons.2 ⟨?_, ih h⟩
      obtain ⟨hask, -⟩ := ask_later hfound (grows_askAll _ objects)
      cases object with
      | timer name => exact congrArg Prod.snd hask
      | entity id => exact congrArg Prod.fst hask
    · rw [if_neg hfound] at h
      exact absurd h hfound

end HostRef

namespace Chunk

/-- What the body of a function comes to is a matter of what its run comes to. -/
theorem run_settled_congr {run run' : Run Datum} {hosts hosts' : Hosts}
    (h : run.run.run hosts = run'.run.run hosts') : (settled run).run.run hosts = (settled run').run.run hosts' := by
  rcases hresult : run'.run.run hosts' with ⟨(_ | d) | d, later⟩
  · rw [run_settled_of_fault hresult, run_settled_of_fault (h.trans hresult)]
  · rw [run_settled_of_given hresult, run_settled_of_given (h.trans hresult)]
  · rw [run_settled_of_ok hresult, run_settled_of_ok (h.trans hresult)]

end Chunk

/-- Lookups that all find something come to what they come to where everything has been looked up before. -/
theorem Term.run_lookups_askAll {chunk : Chunk} {calls : Calls} {env : Env} (hcalls : calls.Native)
    (rest : List Statement) (name : Nat → HostRef → String) {objects : List HostRef} {hosts : Hosts}
    (h : (HostRef.askAll hosts objects).1 = true) :
    (evalBody chunk calls env (lookupsOf name objects ++ rest)).run.run hosts =
      (evalBody chunk calls env (lookupsOf name objects ++ rest)).run.run (HostRef.askAll hosts objects).2 := by
  induction objects generalizing env name hosts with
  | nil => rfl
  | cons object objects ih =>
    have hask (hosts : Hosts) : (eval chunk calls env _).run.run hosts = _ := run_ask hcalls object hosts
    rw [HostRef.askAll] at h ⊢
    by_cases hfound : (object.ask hosts).1 = true
    · rw [if_pos hfound] at h ⊢
      have hfirst := hask hosts
      have hlater := hask (HostRef.askAll (object.ask hosts).2 objects).2
      obtain ⟨hsame, hvalue⟩ := HostRef.ask_later hfound (HostRef.grows_askAll _ objects)
      rw [if_pos hfound] at hfirst
      rw [hsame, hvalue, if_pos rfl] at hlater
      rw [lookupsOf_cons, List.cons_append, evalBody, run_bind_of_ok hfirst, run_bind_of_ok hlater]
      exact ih _ h
    · rw [if_neg hfound] at h
      exact absurd h hfound

/-- A unit is called as if its objects had been looked up before. -/
theorem BakedUnit.call_askAll {u : RecordedUnit} {e : Expr} {unit : BakedUnit}
    (h : RecordedUnit.LoadedAs (u, e.unitLines) unit) {args : List Value} (hargs : args.length = u.params.length)
    {hosts : Hosts} (hall : (HostRef.askAll hosts (e.lookups.map (·.object))).1 = true) :
    unit.call args hosts = unit.call args (HostRef.askAll hosts (e.lookups.map (·.object))).2 := by
  obtain ⟨f, rest, hfind, hbody, -⟩ := (asksFor_of_loadedAs h).body
  rw [← hargs] at hfind
  have hnative : (unit.chunk.callsWithin maxCalls).Native := h.keeps.native 63
  unfold call
  rw [h.keeps.run_call hfind, h.keeps.run_call hfind, hbody,
    run_settled_congr (Term.run_lookups_askAll hnative rest _ hall)]

/-! ### Hosts that lack timers -/

namespace Hosts

variable {hosts fewer : Hosts}

theorem isSome_timer? (name other : String) (h : (hosts.timer? other).isSome) :
    ((hosts.timer name).2.timer? other).isSome := by
  rw [timer?_timer, Option.isSome_or, h, Bool.true_or]

theorem isSome_timer?_self (hosts : Hosts) (name : String) : ((hosts.timer name).2.timer? name).isSome := by
  rw [timer?_timer, Option.isSome_or, if_pos rfl, Option.isSome_some, Bool.or_true]

/-- What looking objects up makes of hosts that lack some timers of others, if every timer that is missing stands at zero
there: all objects are found, those hosts have all timers still, and no timer of the objects is missing any more. -/
theorem Covers.askAll (objects : List HostRef) (h : hosts.Covers fewer)
    (htimers : ∀ name, .timer name ∈ objects → fewer.timer? name = none → hosts.timer? name = some (Timer.new name))
    (hentities : ∀ id, .entity id ∈ objects → (hosts.entity? id).isSome) :
    (HostRef.askAll fewer objects).1 = true ∧ hosts.Covers (HostRef.askAll fewer objects).2 ∧
      (∀ name, .timer name ∈ objects → ((HostRef.askAll fewer objects).2.timer? name).isSome) ∧
      ∀ name, (fewer.timer? name).isSome → ((HostRef.askAll fewer objects).2.timer? name).isSome := by
  induction objects generalizing fewer with
  | nil => exact ⟨rfl, h, fun _ hmem => absurd hmem List.not_mem_nil, fun _ => id⟩
  | cons object objects ih =>
    rw [HostRef.askAll]
    cases object with
    | timer name =>
      -- Other timers are missing after this one is made only if they were missing before.
      have hnext := h.timer (htimers name List.mem_cons_self)
      obtain ⟨hall, hcovers, hobjects, hkept⟩ := ih hnext (fun other hmem hnone => by
        refine htimers other (List.mem_cons_of_mem _ hmem) ?_
        rw [timer?_timer, Option.or_eq_none_iff] at hnone
        exact hnone.1) fun id hmem => hentities id (List.mem_cons_of_mem _ hmem)
      rw [HostRef.ask, if_pos rfl]
      refine ⟨hall, hcovers, fun other hmem => ?_, fun other hother => hkept other (isSome_timer? name other hother)⟩
      rcases List.mem_cons.1 hmem with heq | hmem
      · cases heq
        exact hkept name (fewer.isSome_timer?_self name)
      · exact hobjects other hmem
    | entity id =>
      have hfound : (fewer.entity? id).isSome = true := by
        rw [Hosts.entity?, h.entities]
        exact hentities id List.mem_cons_self
      obtain ⟨hall, hcovers, hobjects, hkept⟩ := ih h
        (fun name hmem => htimers name (List.mem_cons_of_mem _ hmem))
        fun id hmem => hentities id (List.mem_cons_of_mem _ hmem)
      rw [HostRef.ask, if_pos hfound]
      refine ⟨hall, hcovers, fun name hmem => ?_, hkept⟩
      rcases List.mem_cons.1 hmem with heq | hmem
      · cases heq
      · exact hobjects name hmem

end Hosts

/-- An object that two hosts know stands for the same in both. -/
theorem HostRef.alike_value {hosts fewer : Hosts} {object : HostRef} (h : hosts.Covers fewer)
    (hfound : object.Found hosts) (hfound' : object.Found fewer) :
    (object.value hosts).Alike hosts fewer (object.value fewer) := by
  cases object with
  | timer name =>
    have hslot := hosts.timerSlot?_timer name
    have hslot' := fewer.timerSlot?_timer name
    rw [show (hosts.timer name).2 = hosts from hfound] at hslot
    rw [show (fewer.timer name).2 = fewer from hfound'] at hslot'
    exact ⟨(hosts.name_timer name).trans (fewer.name_timer name).symm, hslot, hslot'⟩
  | entity id =>
    have hentity : fewer.entity? id = hosts.entity? id := by
      unfold Hosts.entity?
      rw [h.entities]
    rw [value, value, hentity]
    exact rfl

/-- What a unit comes to over hosts that know its objects, as told by other hosts that know them. -/
theorem Expr.evalUnit_alike {hosts fewer : Hosts} {e : Expr} (order : FloatOrder) {env env' : Env}
    (h : hosts.Covers fewer) (hfound : e.ObjectsFound hosts) (hfound' : e.ObjectsFound fewer)
    (henv : env.Alike hosts fewer env') :
    Except.Rel (Value.Alike hosts fewer) (e.evalUnit order hosts env) (e.evalUnit order fewer env') := by
  refine eval_alike h _ (objects_withNames _ _) (List.rel_append ?_ henv)
  refine List.forall₂_reverse_iff.2 (List.forall₂_map_right_iff.2 (List.forall₂_map_left_iff.2 ?_))
  exact List.forall₂_same.2 fun known hknown => ⟨rfl, HostRef.alike_value h (hfound known hknown) (hfound' known hknown)⟩

/-! ### Timers that code holds -/

mutual

/-- The timers that code holds, from left to right. -/
def Code.timers : Code → List TimerHandle
  | .const (.timer handle) => [handle]
  | .const _ | .slot _ => []
  | .member inner _ | .unary _ inner => inner.timers
  | .binary _ left right => left.timers ++ right.timers
  | .call _ args => Code.timersList args
  | .branch cond yes no => cond.timers ++ yes.timers ++ no.timers
  | .bind _ value body => value.timers ++ body.timers

/-- The timers that some codes hold. -/
def Code.timersList : List Code → List TimerHandle
  | [] => []
  | code :: codes => code.timers ++ Code.timersList codes

end

/-- The timers that the code of a callable holds. -/
def Callable.timers (c : Callable) : List TimerHandle :=
  match c.body with
  | .code code => code.timers
  | .unit _ => []

/-- Code holds the timers of its expression. -/
theorem Expr.mem_timers_iff {e : Expr} {scope : List String} {code : Code} (h : e.compile scope = .ok code)
    (handle : TimerHandle) : handle ∈ code.timers ↔ .timer handle ∈ e.objects := by
  induction e using treeInduction generalizing scope code with
  | const value =>
    cases h
    cases value <;> simp [Code.timers, objects, Value.object?]
  | var name =>
    rw [compile] at h
    split at h <;> cases h
    exact iff_of_false List.not_mem_nil List.not_mem_nil
  | member inner field ih =>
    obtain ⟨inner', hinner, h⟩ := Except.bind_eq_ok_iff.1 h
    cases h
    rw [Code.timers, objects]
    exact ih hinner
  | unary op inner ih =>
    obtain ⟨inner', hinner, h⟩ := Except.bind_eq_ok_iff.1 h
    cases h
    rw [Code.timers, objects]
    exact ih hinner
  | binary op left right ihl ihr =>
    obtain ⟨left', hl, h⟩ := Except.bind_eq_ok_iff.1 h
    obtain ⟨right', hr, h⟩ := Except.bind_eq_ok_iff.1 h
    cases h
    rw [Code.timers, objects, List.mem_append, List.mem_append, ihl hl, ihr hr]
  | branch cond yes no ihc ihy ihn =>
    obtain ⟨cond', hc, h⟩ := Except.bind_eq_ok_iff.1 h
    obtain ⟨yes', hy, h⟩ := Except.bind_eq_ok_iff.1 h
    obtain ⟨no', hn, h⟩ := Except.bind_eq_ok_iff.1 h
    cases h
    rw [Code.timers, objects, List.mem_append, List.mem_append, List.mem_append, List.mem_append, ihc hc, ihy hy,
      ihn hn]
  | bind name value body ihv ihb =>
    obtain ⟨value', hv, h⟩ := Except.bind_eq_ok_iff.1 h
    obtain ⟨body', hb, h⟩ := Except.bind_eq_ok_iff.1 h
    cases h
    rw [Code.timers, objects, List.mem_append, List.mem_append, ihv hv, ihb hb]
  | call func args ih =>
    obtain ⟨codes, hcodes, hcall⟩ := Except.bind_eq_ok_iff.1 h
    cases hcall
    clear h
    rw [Code.timers, objects]
    induction args generalizing codes with
    | nil =>
      cases hcodes
      exact iff_of_false List.not_mem_nil List.not_mem_nil
    | cons e es ihes =>
      obtain ⟨code, hcode, hcodes⟩ := Except.bind_eq_ok_iff.1 hcodes
      obtain ⟨codes', hcodes', h⟩ := Except.bind_eq_ok_iff.1 hcodes
      cases h
      rw [Code.timersList, objectsList, List.mem_append, List.mem_append, ih e List.mem_cons_self hcode,
        ihes (fun e he => ih e (List.mem_cons_of_mem _ he)) codes' hcodes']

end Barrage
