import Barrage.Bake.Callable
import Barrage.Proofs.Chunk.Running

/-!
# Serving changes no entity

A function of a chunk may look a timer up, which may create it. This is all that it can do to the host objects,
whatever it calls and however it ends. So an evaluation leaves the entities as they are, also if it is served from
artifacts, and also if it fails.

## Main definitions

* `Chunk.Preserves`: runs that leave something about the host objects as it is
* `Chunk.KeepsEntities`: runs that leave the entities as they are

## Main results

* `Term.keeps_eval`: terms keep the entities if the calls do
* `Chunk.keeps_call`: functions of a chunk keep the entities
* `Callable.entities_invoke`: so does an evaluation
-/

namespace Barrage

theorem Hosts.entities_timer (hosts : Hosts) (name : String) : (hosts.timer name).2.entities = hosts.entities := by
  unfold timer
  split <;> rfl

namespace Chunk

variable {α β : Type}

/-- A run behind which something about the host objects is as before, however it ends. -/
def Preserves {γ : Type} (f : Hosts → γ) (run : Run α) : Prop := ∀ hosts, f (run.run.run hosts).2 = f hosts

section Preserves

variable {γ : Type} {f : Hosts → γ}

theorem preserves_pure (a : α) : Preserves f (pure a) := fun _ => rfl

theorem preserves_throw (halt : Halt) : Preserves f (throw halt : Run α) := fun _ => rfl

theorem preserves_get : Preserves f (get : Run Hosts) := fun _ => rfl

theorem Preserves.bind {run : Run α} {k : α → Run β} (hrun : Preserves f run) (hk : ∀ a, Preserves f (k a)) :
    Preserves f (run >>= k) := by
  intro hosts
  rw [← hrun hosts]
  rcases hresult : run.run.run hosts with ⟨halt | a, later⟩
  · rw [run_bind_of_error hresult]
  · rw [run_bind_of_ok hresult, hk a]

theorem preserves_ofOption (o : Option α) : Preserves f (ofOption o) := by
  cases o with
  | none => exact preserves_throw _
  | some a => exact preserves_pure a

theorem preserves_ofExcept (e : Except EvalError α) : Preserves f (ofExcept e) := by
  cases e with
  | error _ => exact preserves_throw _
  | ok a => exact preserves_pure a

/-- Taking the value that a run gives does nothing to the host objects. -/
theorem hosts_settled (run : Run Datum) (hosts : Hosts) :
    ((settled run).run.run hosts).2 = (run.run.run hosts).2 := by
  rcases hresult : run.run.run hosts with ⟨(_ | d) | d, later⟩
  · rw [run_settled_of_fault hresult]
  · rw [run_settled_of_given hresult]
  · rw [run_settled_of_ok hresult]

theorem preserves_truth (d : Datum) : Preserves f (Term.truth d) := preserves_ofOption _

theorem preserves_lookup (chunk : Chunk) (env : Term.Env) (x : String) :
    Preserves f (Term.lookup chunk env x) := by
  unfold Term.lookup
  split
  · exact preserves_pure _
  · split
    · exact preserves_pure _
    · exact preserves_throw _

/-- An operator of which the operands preserve something. -/
theorem preserves_binary {chunk : Chunk} {calls : Term.Calls} {env : Term.Env} (op : Operator) {left right : Term}
    (hleft : Preserves f (Term.eval chunk calls env left)) (hright : Preserves f (Term.eval chunk calls env right)) :
    Preserves f (Term.eval chunk calls env (.binary op left right)) := by
  by_cases hand : op = .func .and
  · rw [hand, Term.eval]
    refine hleft.bind fun d => (preserves_truth d).bind fun b => ?_
    split
    · exact hright.bind fun d => (preserves_truth d).bind fun _ => preserves_pure _
    · exact preserves_pure _
  · by_cases hor : op = .func .or
    · rw [hor, Term.eval]
      refine hleft.bind fun d => (preserves_truth d).bind fun b => ?_
      split
      · exact preserves_pure _
      · exact hright.bind fun d => (preserves_truth d).bind fun _ => preserves_pure _
    · rw [Term.eval]
      · exact hleft.bind fun _ => hright.bind fun _ => preserves_ofOption _
      · exact hand
      · exact hor

end Preserves

/-- A run that leaves the entities as they are, however it ends. -/
def KeepsEntities (run : Run α) : Prop := ∀ hosts, (run.run.run hosts).2.entities = hosts.entities

theorem keeps_pure (a : α) : KeepsEntities (pure a) := preserves_pure a

theorem keeps_throw (halt : Halt) : KeepsEntities (throw halt : Run α) := preserves_throw halt

theorem KeepsEntities.bind {run : Run α} {k : α → Run β} (hrun : KeepsEntities run)
    (hk : ∀ a, KeepsEntities (k a)) : KeepsEntities (run >>= k) :=
  Preserves.bind hrun hk

theorem keeps_ofOption (o : Option α) : KeepsEntities (ofOption o) := preserves_ofOption o

theorem KeepsEntities.settled {run : Run Datum} (hrun : KeepsEntities run) : KeepsEntities (settled run) := by
  intro hosts
  rw [hosts_settled, hrun]

/-- The functions every chunk can call. -/
theorem keeps_native (name : String) (args : List Datum) : KeepsEntities (native name args) := by
  unfold native
  split
  · exact KeepsEntities.bind (fun hosts => hosts.entities_timer _) fun _ => keeps_pure _
  · exact Preserves.bind preserves_get fun _ => (keeps_ofOption _).bind fun _ => keeps_pure _
  · exact (keeps_ofOption _).bind fun _ => keeps_pure _
  · exact keeps_pure _
  · exact keeps_pure _
  · exact keeps_pure _
  · exact (keeps_ofOption _).bind fun _ => Preserves.bind preserves_get fun _ => (keeps_ofOption _).bind fun _ =>
      Preserves.bind (preserves_ofExcept _) fun _ => keeps_pure _

end Chunk

open Chunk

namespace Term

/-- Calls that leave the entities as they are. -/
structure Calls.KeepEntities (calls : Calls) : Prop where
  function : ∀ name object args, KeepsEntities (calls.function name object args)
  script : ∀ env text, KeepsEntities (calls.script env text)

variable {chunk : Chunk} {calls : Calls} {env : Env}

theorem keeps_invoke (hcalls : calls.KeepEntities) (function : String) (args : List Datum) :
    KeepsEntities (invoke chunk calls env function args) := by
  unfold invoke
  split
  · exact keeps_pure _
  · exact keeps_pure _
  · split
    · exact keeps_pure _
    · exact keeps_throw _
  · exact keeps_pure _
  · exact hcalls.function _ _ _
  · exact hcalls.script _ _
  · exact hcalls.function _ _ _

theorem keeps_invokeOn (hcalls : calls.KeepEntities) (object : Datum) (function : String) (args : List Datum) :
    KeepsEntities (invokeOn calls object function args) := by
  unfold invokeOn
  split
  · exact hcalls.function _ _ _
  · exact keeps_pure _
  · exact hcalls.function _ _ _

mutual

/-- The value of a term. -/
theorem keeps_eval (hcalls : calls.KeepEntities) (env : Env) : (t : Term) → KeepsEntities (eval chunk calls env t)
  | unit => by rw [eval]; exact keeps_pure _
  | bool b => by rw [eval]; exact keeps_pure _
  | int n => by rw [eval]; exact keeps_pure _
  | float x => by rw [eval]; exact keeps_pure _
  | text s => by rw [eval]; exact keeps_pure _
  | name x => by rw [eval]; exact preserves_lookup chunk env x
  | not inner => by
    rw [eval]
    exact (keeps_eval hcalls env inner).bind fun d => Preserves.bind (preserves_truth d) fun _ => keeps_pure _
  | binary op left right => preserves_binary op (keeps_eval hcalls env left) (keeps_eval hcalls env right)
  | call function args => by
    rw [eval]
    exact (keeps_evalList hcalls env args).bind fun _ => keeps_invoke hcalls function _
  | send object function args => by
    rw [eval]
    exact (keeps_eval hcalls env object).bind fun d =>
      (keeps_evalList hcalls env args).bind fun _ => keeps_invokeOn hcalls d function _
  | part object _ => by
    rw [eval]
    exact (keeps_eval hcalls env object).bind fun _ => keeps_throw _
  | choice cond yes no => by
    rw [eval]
    refine (keeps_eval hcalls env cond).bind fun d => Preserves.bind (preserves_truth d) fun b => ?_
    split
    · exact keeps_evalBody hcalls env yes
    · exact keeps_evalBody hcalls env no
  | block body => by
    rw [eval]
    exact keeps_evalBody hcalls env body

theorem keeps_evalList (hcalls : calls.KeepEntities) (env : Env) :
    (ts : List Term) → KeepsEntities (evalList chunk calls env ts)
  | [] => by rw [evalList]; exact keeps_pure _
  | t :: ts => by
    rw [evalList]
    exact (keeps_eval hcalls env t).bind fun _ => (keeps_evalList hcalls env ts).bind fun _ => keeps_pure _

theorem keeps_evalBody (hcalls : calls.KeepEntities) (env : Env) :
    (body : List Statement) → KeepsEntities (evalBody chunk calls env body)
  | [] => by rw [evalBody]; exact keeps_pure _
  | .bind x value :: rest => by
    rw [evalBody]
    exact (keeps_eval hcalls env value).bind fun d => keeps_evalBody hcalls ((x, d) :: env) rest
  | .give value :: _ => by
    rw [evalBody]
    exact (keeps_eval hcalls env value).bind fun _ => keeps_throw _
  | [.eval value] => by
    rw [evalBody]
    exact keeps_eval hcalls env value
  | .eval value :: next :: rest => by
    rw [evalBody]
    · exact (keeps_eval hcalls env value).bind fun _ => keeps_evalBody hcalls env (next :: rest)
    · simp

end

end Term

namespace Chunk

/-- A function of a chunk, if the calls from it keep the entities. -/
theorem keeps_run {chunk : Chunk} {calls : Term.Calls} (hcalls : calls.KeepEntities) (f : Definition)
    (object : Option Datum) (args : List Datum) : KeepsEntities (f.run chunk calls object args) :=
  (Term.keeps_evalBody hcalls _ f.body).settled

theorem keepEntities_callsWithin (chunk : Chunk) (room : Nat) : (chunk.callsWithin room).KeepEntities := by
  induction room with
  | zero =>
    refine ⟨fun name object args => ?_, fun _ _ => keeps_throw _⟩
    simp only [callsWithin]
    split
    · exact keeps_throw _
    · exact keeps_native _ _
  | succ room ih =>
    refine ⟨fun name object args => ?_, fun env text => ?_⟩
    · simp only [callsWithin]
      split
      · exact keeps_native _ _
      · exact keeps_run ih _ _ _
    · simp only [callsWithin]
      split
      · exact (Term.keeps_evalBody ih _ _).settled
      · exact keeps_throw _

/-- A function of a chunk that is called by its name. -/
theorem keeps_call (chunk : Chunk) (name : String) (args : List Value) : KeepsEntities (chunk.call name args) := by
  have hcalls := chunk.keepEntities_callsWithin maxCalls
  refine KeepsEntities.bind (Term.keeps_evalBody hcalls [] chunk.main).settled fun _ => ?_
  exact (keeps_ofOption _).bind fun f => keeps_run hcalls f _ _

end Chunk

/-- An evaluation leaves the entities as they are. -/
theorem Callable.entities_invoke (c : Callable) (args : List Value) (hosts : Hosts) :
    (c.invoke args hosts).2.entities = hosts.entities := by
  have hbody : (runBody c.body (c.bound ++ args) hosts).2.entities = hosts.entities := by
    cases hc : c.body with
    | code code => rfl
    | unit unit =>
      rw [← (unit.chunk.keeps_call unit.name (c.bound ++ args)) hosts]
      unfold runBody BakedUnit.call
      dsimp only
      split <;> simp_all
  unfold invoke
  split
  · rfl
  · split
    · rfl
    · split
      · rename_i heq
        rw [heq] at hbody
        exact hbody
      · rename_i heq
        rw [heq] at hbody
        split <;> exact hbody

end Barrage
