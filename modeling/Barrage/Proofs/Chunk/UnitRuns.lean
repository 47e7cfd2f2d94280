import Barrage.Proofs.Chunk.Evaluating

/-!
# Running units

A unit looks its objects up, evaluates its bindings and gives its result. Over host objects in which every
lookup finds something, this serves the run of the linear form that the unit was printed from. A binding
that the linear form leaves out is bound to the unit value instead, which nothing reads.

## Main definitions

* `Chunk.Gives` — what a run that ends by giving a value has to do with an evaluation
* `HostRef.ask`, `HostRef.Found` — looking an object up, and lookups that find something and create nothing
* `Term.Calls.Native` — calls of everything that a unit calls

## Main results

* `Term.evalBody_hoisted` — the lookups of a unit
* `Term.gives_bindings` — its bindings and its result
* `Term.serves_lines` — the lines of a unit serve the run of its linear form
-/

namespace Barrage

open Chunk Barrage.Expr

namespace Chunk

variable {α β : Type} {hosts hosts' : Hosts}

/-! ### Runs that end by giving a value -/

/-- A run that gives a value from within as an evaluation does, or ends in a fault where the evaluation
ends in an error. -/
def Gives (hosts : Hosts) (run : Run Datum) : Except EvalError Value → Prop
  | .ok v => run.run.run hosts = (.error (.given (.value v)), hosts)
  | .error e => (∀ slot, e ≠ .unboundSlot slot) → run.run.run hosts = (.error .fault, hosts)

theorem Serves.gives {run : Run β} {conv : α → β} {k : β → Run Datum} {r : Except EvalError α}
    {f : α → Except EvalError Value} (h : Serves hosts run conv r)
    (hk : ∀ a, r = .ok a → Gives hosts (k (conv a)) (f a)) : Gives hosts (run >>= k) (r >>= f) := by
  cases r with
  | error e => exact fun he => run_bind_of_error (h he)
  | ok a =>
    have hrest := hk a rfl
    change Gives hosts (run >>= k) (f a)
    unfold Gives at hrest ⊢
    rw [run_bind_of_ok h]
    exact hrest

/-- What a function gives is its value. -/
theorem Gives.settled {run : Run Datum} {r : Except EvalError Value} (h : Gives hosts run r) :
    Serves hosts (settled run) Datum.value r := by
  cases r with
  | ok v => exact run_settled_of_given h
  | error e => exact fun he => run_settled_of_fault (h he)

end Chunk

/-! ### Lookups -/

namespace HostRef

/-- Looking an object up: whether there is one, and the host objects afterwards. -/
def ask (hosts : Hosts) : HostRef → Bool × Hosts
  | timer name => (true, (hosts.timer name).2)
  | entity id => ((hosts.entity? id).isSome, hosts)

/-- Lookups that find something, and so create nothing. -/
def Found (hosts : Hosts) : HostRef → Prop
  | timer name => (hosts.timer name).2 = hosts
  | entity id => (hosts.entity? id).isSome = true

theorem Found.ask_eq {hosts : Hosts} {object : HostRef} (h : object.Found hosts) :
    object.ask hosts = (true, hosts) := by
  cases object <;> exact Prod.ext (by first | rfl | exact h) (by first | rfl | exact h)

end HostRef

namespace Term

variable {chunk : Chunk} {calls : Calls} {env : Env} {hosts : Hosts} {senv : Expr.Env}
  {scope scope' : Scope} {ty : ValueType}

/-- Calls in which everything that a unit calls is what every chunk can call. -/
structure Calls.Native (calls : Calls) : Prop where
  plain : calls.Plain
  lookup : ∀ (object : HostRef) (args : List Datum),
    calls.function ("get_" ++ object.kind) none args = native ("get_" ++ object.kind) args

/-- A lookup hands its object out, or ends in a fault if there is none. -/
theorem run_ask (hcalls : calls.Native) (object : HostRef) (hosts : Hosts) :
    (eval chunk calls env (.call ("get_" ++ object.kind) [.text object.key])).run.run hosts =
      (if (object.ask hosts).1 then .ok (.value (object.value hosts)) else .error .fault, (object.ask hosts).2) := by
  have hargs : evalList chunk calls env [.text object.key] = pure [.text object.key] := by
    simp only [evalList, eval, pure_bind]
  have hinvoke : ∀ args, invoke chunk calls env ("get_" ++ object.kind) args =
      calls.function ("get_" ++ object.kind) none args := by
    intro args
    cases object <;> rfl
  rw [eval, hargs, pure_bind, hinvoke, hcalls.lookup]
  cases object with
  | timer name => rfl
  | entity id =>
    change ((do return Datum.value (.entity (← ofOption (hosts.entity? id))) : Run Datum)).run.run hosts = _
    rw [HostRef.ask, HostRef.value]
    cases hosts.entity? id <;> rfl

/-- A lookup of an object is not computed beforehand. -/
theorem ofCall_lookup (object : HostRef) : ofCall ("get_" ++ object.kind) [.text object.key] =
    .call ("get_" ++ object.kind) [.text object.key] := by
  cases object <;> rfl

/-- A lookup that finds something serves it. -/
theorem run_lookup (hcalls : calls.Native) {object : HostRef} (hfound : object.Found hosts) :
    (eval chunk calls env (ofCall ("get_" ++ object.kind) [.text object.key])).run.run hosts =
      (.ok (.value (object.value hosts)), hosts) := by
  rw [ofCall_lookup, run_ask hcalls, hfound.ask_eq]
  rfl

/-- The statement that a lookup is loaded as. -/
theorem simplified_lookup (h : Hoisted) :
    h.line.simplified = .bind h.name (ofCall ("get_" ++ h.object.kind) [.text h.object.key]) := by
  rw [Hoisted.line, Line.simplified, Phrase.term, simplify]
  rfl

theorem named_cons {α : Type} (f : HostRef → α) (h : Hoisted) (found : List Hoisted) :
    named f (h :: found) = named f found ++ [(h.name, f h.object)] := by
  simp [named]

/-- The lookups of a unit bind their objects. -/
theorem evalBody_hoisted (hcalls : calls.Native) {found : List Hoisted}
    (hfound : ∀ h ∈ found, h.object.Found hosts) (rest : List Statement) :
    (evalBody chunk calls env (found.map (fun h => h.line.simplified) ++ rest)).run.run hosts =
      (evalBody chunk calls (named (fun object => .value (object.value hosts)) found ++ env)
        rest).run.run hosts := by
  induction found generalizing env with
  | nil => rfl
  | cons h found ih =>
    obtain ⟨hfirst, hrest⟩ := List.forall_mem_cons.1 hfound
    rw [List.map_cons, List.cons_append, simplified_lookup, evalBody, run_bind_of_ok (run_lookup hcalls hfirst), ih hrest,
      named_cons, List.append_assoc]
    rfl

/-! ### Bindings -/

/-- What a binding is bound to: a value, or the unit value if it is left out. -/
def boundDatum : Option Value → Datum
  | some v => .value v
  | none => .unit

/-- What the value of a binding is read as. -/
def ofBinding (b : Binding) : Term :=
  match b.guard with
  | none => ofExpr b.value
  | some cond => ofDecided (ofExpr cond) (ofExpr b.value) .unit

theorem simplified_line (b : Binding) : b.line.simplified = .bind b.name (ofBinding b) := by
  unfold Binding.line ofBinding
  cases b.guard with
  | none => rfl
  | some cond =>
    rw [Line.simplified, Phrase.simplify_choice cond.phrase (Phrase.simplifies _) (Phrase.simplifies _)]
    rfl

end Term

namespace Binding

variable {order : FloatOrder} {hosts : Hosts} {env : Expr.Env}

/-- The value of a binding, unless it is left out. -/
def outcome (order : FloatOrder) (hosts : Hosts) (env : Expr.Env) (b : Binding) :
    Except EvalError (Option Value) := do
  if ← b.holds order hosts env then
    let value ← Expr.eval order hosts env b.value
    .ok (some value)
  else .ok none

/-- The environment after a binding with an outcome. -/
def after (env : Expr.Env) (b : Binding) : Option Value → Expr.Env
  | some value => (b.name, value) :: env
  | none => env.without b.name

/-- Bindings and what is evaluated behind them, one binding at a time. -/
theorem runAll_cons_eval (b : Binding) (bs : List Binding) (result : Expr) :
    (runAll order hosts env (b :: bs) >>= fun p => Expr.eval order hosts p.1 result) =
      b.outcome order hosts env >>= fun o =>
        runAll order hosts (b.after env o) bs >>= fun p => Expr.eval order hosts p.1 result := by
  rw [runAll, run, outcome]
  cases b.holds order hosts env with
  | error e => rfl
  | ok held =>
    cases held with
    | false =>
      simp only [Except.ok_bind, Bool.false_eq_true, if_false, after]
      cases runAll order hosts (env.without b.name) bs <;> rfl
    | true =>
      simp only [Except.ok_bind, if_true]
      cases Expr.eval order hosts env b.value with
      | error e => rfl
      | ok value =>
        simp only [Except.ok_bind, after]
        cases runAll order hosts ((b.name, value) :: env) bs <;> rfl

end Binding

namespace Term

variable {chunk : Chunk} {calls : Calls} {env : Env} {hosts : Hosts} {senv : Expr.Env}
  {scope scope' : Scope} {ty : ValueType}

/-- The value of a binding serves its outcome. -/
theorem serves_binding (hcalls : calls.Plain) (henv : Env.Holds env senv) (hscope : senv.Fits scope)
    {b : Binding} (hguard : ∀ cond, b.guard = some cond → Straight scope cond .bool)
    (hvalue : Straight scope b.value ty) :
    Serves hosts (eval chunk calls env (ofBinding b)) boundDatum (b.outcome .tolerant hosts senv) := by
  have hvalueServes : Serves hosts (eval chunk calls env (ofExpr b.value)) boundDatum
      (Expr.eval .tolerant hosts senv b.value >>= fun v => .ok (some v)) := by
    have hserves : ServesExpr chunk calls env hosts senv b.value :=
      serves_expr hcalls henv hscope hvalue.typed hvalue.printable
    unfold ServesExpr at hserves
    cases hv : Expr.eval .tolerant hosts senv b.value <;> rw [hv] at hserves <;> exact hserves
  unfold ofBinding Binding.outcome Binding.holds
  cases hcase : b.guard with
  | none => exact hvalueServes
  | some cond =>
    have hcond := hguard cond hcase
    have hunit : Serves hosts (eval chunk calls env unit) boundDatum (.ok none) := by
      rw [eval]
      rfl
    have hserves := serves_ofDecided (serves_expr hcalls henv hscope hcond.typed hcond.printable)
      hvalueServes hunit fun v hv => Value.exists_bool (type_of_eval hcond.typed hscope hv)
    simp only [bind_assoc]
    exact hserves

/-- The environments go on alike behind a binding. -/
theorem Env.Holds.after (h : Env.Holds env senv) (b : Binding) (o : Option Value) :
    Env.Holds ((b.name, boundDatum o) :: env) (b.after senv o) := by
  intro x v hx
  cases o with
  | some value =>
    rw [Binding.after, lookup_cons_ite] at hx
    rw [lookup_cons_ite]
    split at hx
    · cases hx
      rw [if_pos ‹_›]
      rfl
    · rw [if_neg ‹_›]
      exact h x v hx
  | none =>
    rw [Binding.after, lookup_without] at hx
    rw [lookup_cons_ite]
    split at hx
    · cases hx
    · rw [if_neg ‹_›]
      exact h x v hx

end Term

theorem Expr.Env.Fits.after {scope : Scope} {senv : Expr.Env} (h : senv.Fits scope) {b : Binding}
    {ty : ValueType} {o : Option Value} (ho : ∀ v, o = some v → v.type = ty) :
    (b.after senv o).Fits ((b.name, ty) :: scope) := by
  intro x v hx
  rw [lookup_cons_ite]
  cases o with
  | some value =>
    rw [Binding.after, lookup_cons_ite] at hx
    split at hx
    · cases hx
      rw [if_pos ‹_›, ho v rfl]
    · rw [if_neg ‹_›]
      exact h x v hx
  | none =>
    rw [Binding.after, lookup_without] at hx
    split at hx
    · cases hx
    · rw [if_neg ‹_›]
      exact h x v hx

theorem Binding.type_of_outcome {scope : Scope} {senv : Expr.Env} {b : Binding} {ty : ValueType}
    {order : FloatOrder} {hosts : Hosts} {o : Option Value}
    (ho : b.outcome order hosts senv = .ok o) (hvalue : Expr.Straight scope b.value ty)
    (hscope : senv.Fits scope) : ∀ v, o = some v → v.type = ty := by
  rintro v rfl
  obtain ⟨held, -, ho⟩ := Except.bind_eq_ok_iff.1 ho
  split at ho
  · obtain ⟨w, hw, ho⟩ := Except.bind_eq_ok_iff.1 ho
    cases ho
    exact type_of_eval hvalue.typed hscope hw
  · cases ho

namespace Term

variable {chunk : Chunk} {calls : Calls} {env : Env} {hosts : Hosts} {senv : Expr.Env}
  {scope scope' : Scope} {ty : ValueType}

/-- Bindings and the result behind them give what their run comes to. -/
theorem gives_bindings (hcalls : calls.Plain) {bs : List Binding} {result : Expr}
    (hbindings : Binding.Straight scope bs scope') (hresult : Straight scope' result ty)
    (henv : Env.Holds env senv) (hscope : senv.Fits scope) :
    Gives hosts (evalBody chunk calls env
        (bs.map (fun b => b.line.simplified) ++ [(Line.give result.phrase).simplified]))
      (Binding.runAll .tolerant hosts senv bs >>= fun p => Expr.eval .tolerant hosts p.1 result) := by
  induction hbindings generalizing env senv with
  | nil scope =>
    have hserves : ServesExpr chunk calls env hosts senv result :=
      serves_expr hcalls henv hscope hresult.typed hresult.printable
    have hgives : Gives hosts (eval chunk calls env (ofExpr result) >>= fun d => throw (.given d))
        (Expr.eval .tolerant hosts senv result >>= pure) :=
      Serves.gives hserves fun v _ => rfl
    rw [bind_pure] at hgives
    rw [List.map_nil, List.nil_append, Line.simplified, evalBody]
    exact hgives
  | @cons scope scope' b bs ty guard value _ ih =>
    rw [List.map_cons, List.cons_append, simplified_line, evalBody, Binding.runAll_cons_eval]
    refine (serves_binding hcalls henv hscope guard value).gives fun o ho => ?_
    exact ih hresult (henv.after b o) (hscope.after (Binding.type_of_outcome ho value hscope))

/-- The lines of a unit serve the run of its linear form. -/
theorem serves_lines (hcalls : calls.Native) {l : Linear}
    (hfound : ∀ h ∈ l.hoisted, h.object.Found hosts)
    (hbindings : Binding.Straight scope l.bindings scope') (hresult : Straight scope' l.result ty)
    (henv : Env.Holds (named (fun object => .value (object.value hosts)) l.hoisted ++ env) senv)
    (hscope : senv.Fits scope) :
    Serves hosts (settled (evalBody chunk calls env (l.lines.map Line.simplified))) Datum.value
      ((l.run .tolerant hosts senv).map Prod.fst) := by
  have hlines : l.lines.map Line.simplified = l.hoisted.map (fun h => h.line.simplified) ++
      (l.bindings.map (fun b => b.line.simplified) ++ [(Line.give l.result.phrase).simplified]) := by
    simp [Linear.lines, Function.comp_def]
  have hrun : (l.run .tolerant hosts senv).map Prod.fst = Binding.runAll .tolerant hosts senv l.bindings >>=
      fun p => Expr.eval .tolerant hosts p.1 l.result := by
    unfold Linear.run
    cases Binding.runAll .tolerant hosts senv l.bindings with
    | error e => rfl
    | ok p =>
      simp only [Except.ok_bind]
      cases Expr.eval .tolerant hosts p.1 l.result <;> rfl
  have hgives : Gives hosts (evalBody chunk calls env (l.lines.map Line.simplified))
      ((l.run .tolerant hosts senv).map Prod.fst) := by
    have hrest : Gives hosts (evalBody chunk calls
        (named (fun object => .value (object.value hosts)) l.hoisted ++ env)
        (l.bindings.map (fun b => b.line.simplified) ++ [(Line.give l.result.phrase).simplified])) _ :=
      gives_bindings hcalls.plain hbindings hresult henv hscope
    rw [hlines, hrun]
    unfold Gives at hrest ⊢
    rw [evalBody_hoisted hcalls hfound]
    exact hrest
  exact hgives.settled

end Term

end Barrage
