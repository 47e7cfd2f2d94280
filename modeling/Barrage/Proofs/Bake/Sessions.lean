import Barrage.Bake.Compile
import Barrage.Proofs.Expr.TypeSoundness

/-!
# Steps of sessions

What is done inside a source is done between opening and closing it. In a recording session an expression
is compiled as it is in a direct one, and its printed body becomes the next unit of the source on top of
the stack; in a serving session it is given the next unit of that source. The callable that is compiled
directly runs the code of the flattened tree, which comes to what the tree does, whatever comparisons of
floats are used.

## Main results

* `BuildM.run_within` — opening a source, doing something and closing it
* `Request.exists_compileDirect` — the callable of an accepted tree
* `Session.compile_recording`, `Session.serve_next` — compiling in a source that is open
-/

namespace Barrage

namespace BuildM

variable {ε δ α β : Type}

theorem run_bind (x : BuildM ε α) (f : α → BuildM ε β) (state : BuildState) :
    (x >>= f).run.run state = match x.run.run state with
      | (.ok a, after) => (f a).run.run after
      | (.error e, after) => (.error e, after) := by
  simp only [ExceptT.run_bind, StateT.run_bind]
  generalize x.run.run state = r
  obtain ⟨_ | _, _⟩ := r <;> rfl

theorem run_get (state : BuildState) : (get : BuildM ε BuildState).run.run state = (.ok state, state) := rfl

theorem run_attempt (x : BuildM ε α) (state : BuildState) :
    (attempt x : BuildM δ (Except ε α)).run.run state =
      (.ok (x.run.run state).1, (x.run.run state).2) := by
  rw [attempt, ExceptT.run_lift, StateT.run_map]
  rfl

theorem run_adapt (f : ε → δ) (x : BuildM ε α) (state : BuildState) :
    (x.adapt f).run.run state = ((x.run.run state).1.mapError f, (x.run.run state).2) := by
  have hadapt : (x.adapt f).run = Except.mapError f <$> x.run := rfl
  rw [hadapt, StateT.run_map]
  rfl

theorem run_openKeyed (kind : SiteKind) (key : SiteKey) (state : BuildState) :
    (openKeyed kind key).run.run state =
      match state.session.openKeyed kind key with
      | .error e => (.error e, state)
      | .ok (id, session) => (.ok id, { state with session }) := by
  unfold openKeyed
  rw [run_bind, run_get]
  dsimp only
  cases state.session.openKeyed kind key <;> rfl

theorem run_close (id : Option Nat) (keep : Bool) (state : BuildState) :
    (close id keep).run.run state =
      match state.session.close id keep with
      | .error e => (.error e, state)
      | .ok session => (.ok (), { state with session }) := by
  unfold close
  rw [run_bind, run_get]
  dsimp only
  cases state.session.close id keep <;> rfl

theorem run_compile (e : Expr) (r : Request) (state : BuildState) :
    (compile e r).run.run state =
      ((state.session.compile e r).1, { state with session := (state.session.compile e r).2 }) := by
  unfold compile
  rw [run_bind]
  change ((do
    setSession (state.session.compile e r).2
    MonadExcept.ofExcept (state.session.compile e r).1 : BuildM CompileError Callable)).run.run state = _
  cases (state.session.compile e r).1 <;> rfl

/-- Parsing leaves the session as it is. -/
theorem run_parse (source : String) (state : BuildState) :
    (parse source).run.run state =
      ((Expr.parseIn state.hosts source).1.mapError .parse,
        { state with hosts := (Expr.parseIn state.hosts source).2 }) := by
  unfold parse
  rw [run_bind]
  change ((do
    set { state with hosts := (Expr.parseIn state.hosts source).2 }
    MonadExcept.ofExcept ((Expr.parseIn state.hosts source).1.mapError .parse) :
      BuildM CompileError Expr)).run.run state = _
  cases (Expr.parseIn state.hosts source).1 <;> rfl

/-- A text is compiled as the tree that it is parsed to, unless the session serves. -/
theorem run_compileSource (source : String) (r : Request) (state : BuildState) :
    (compileSource source r).run.run state =
      if state.session.mode = .serve then
        ((state.session.serve r).1, { state with session := (state.session.serve r).2 })
      else (parse source >>= fun e => compile e r).run.run state := by
  unfold compileSource
  rw [run_bind]
  change (if state.session.mode = .serve then _ else _ : BuildM CompileError Callable).run.run state = _
  split
  · rw [run_bind]
    change ((do
      setSession (state.session.serve r).2
      MonadExcept.ofExcept (state.session.serve r).1 : BuildM CompileError Callable)).run.run state = _
    cases (state.session.serve r).1 <;> rfl
  · rfl

/-! ### Success -/

/-- A computation succeeds with a result and a state. -/
def Gives (x : BuildM ε α) (state : BuildState) (a : α) (after : BuildState) : Prop :=
  x.run.run state = (.ok a, after)

variable {state after : BuildState} {a : α} {b : β}

theorem gives_iff {x : BuildM ε α} :
    Gives x state a after ↔ (x.run.run state).1 = .ok a ∧ (x.run.run state).2 = after :=
  Prod.ext_iff

theorem gives_pure {a' : α} : Gives (pure a : BuildM ε α) state a' after ↔ a = a' ∧ state = after := by
  change ((.ok a : Except ε α), state) = (.ok a', after) ↔ _
  rw [Prod.mk.injEq, Except.ok.injEq]

theorem gives_bind {x : BuildM ε α} {f : α → BuildM ε β} :
    Gives (x >>= f) state b after ↔ ∃ a mid, Gives x state a mid ∧ Gives (f a) mid b after := by
  simp only [gives_iff, run_bind]
  generalize x.run.run state = r
  obtain ⟨e | a, mid⟩ := r
  · simp
  · simp only [Except.ok.injEq]
    constructor
    · exact fun h => ⟨a, mid, ⟨rfl, rfl⟩, h⟩
    · rintro ⟨_, _, ⟨rfl, rfl⟩, h⟩
      exact h

theorem gives_adapt {f : ε → δ} {x : BuildM ε α} :
    Gives (x.adapt f) state a after ↔ Gives x state a after := by
  simp only [gives_iff, run_adapt]
  generalize x.run.run state = r
  obtain ⟨e | a', mid⟩ := r <;> simp [Except.mapError]

theorem gives_ofExcept {r : Except ε α} :
    Gives (MonadExcept.ofExcept r : BuildM ε α) state a after ↔ r = .ok a ∧ state = after := by
  cases r with
  | error e =>
    change ((.error e : Except ε α), state) = (.ok a, after) ↔ _
    simp
  | ok a' => exact gives_pure.trans (by rw [Except.ok.injEq])

theorem gives_mapM_nil {f : α → BuildM ε β} {bs : List β} :
    Gives (([] : List α).mapM f) state bs after ↔ bs = [] ∧ state = after := by
  rw [List.mapM_nil, gives_pure, eq_comm]

theorem gives_mapM_cons {f : α → BuildM ε β} {as : List α} {bs : List β} :
    Gives ((a :: as).mapM f) state bs after ↔
      ∃ b mid bs', Gives (f a) state b mid ∧ Gives (as.mapM f) mid bs' after ∧ bs = b :: bs' := by
  simp only [List.mapM_cons, gives_bind, gives_pure]
  constructor
  · rintro ⟨b, mid, hb, bs', mid', hbs, rfl, rfl⟩
    exact ⟨b, mid, bs', hb, hbs, rfl⟩
  · rintro ⟨b, mid, bs', hb, hbs, rfl⟩
    exact ⟨b, mid, hb, bs', after, hbs, rfl, rfl⟩

theorem gives_mapM_append {f : α → BuildM ε β} {as as' : List α} {bs : List β} :
    Gives ((as ++ as').mapM f) state bs after ↔
      ∃ cs mid cs', Gives (as.mapM f) state cs mid ∧ Gives (as'.mapM f) mid cs' after ∧ bs = cs ++ cs' := by
  simp only [List.mapM_append, gives_bind, gives_pure]
  constructor
  · rintro ⟨cs, mid, hcs, cs', mid', hcs', rfl, rfl⟩
    exact ⟨cs, mid, cs', hcs, hcs', rfl⟩
  · rintro ⟨cs, mid, cs', hcs, hcs', rfl⟩
    exact ⟨cs, mid, hcs, cs', after, hcs', rfl, rfl⟩

theorem length_of_gives_mapM {f : α → BuildM ε β} {as : List α} {bs : List β}
    (h : Gives (as.mapM f) state bs after) : bs.length = as.length := by
  induction as generalizing state bs with
  | nil => rw [(gives_mapM_nil.1 h).1]; rfl
  | cons a as ih =>
    obtain ⟨b, mid, bs', -, hbs, rfl⟩ := gives_mapM_cons.1 h
    rw [List.length_cons, List.length_cons, ih hbs]

/-! ### Sources -/

/-- The state after closing what was opened, as well as that goes. -/
def closed (state : BuildState) (id : Option Nat) (keep : Bool) : BuildState :=
  match state.session.close id keep with
  | .ok session => { state with session }
  | .error _ => state

/-- A source is opened, something is done, and the source is closed. -/
theorem run_within (ofBake : BakeError → ε) (kind : SiteKind) (key : SiteKey) (keepFailed : Bool)
    (act : BuildM ε α) (state : BuildState) :
    (within ofBake kind key keepFailed act).run.run state =
      match state.session.openKeyed kind key with
      | .error e => (.error (ofBake e), state)
      | .ok (id, session) =>
        match act.run.run { state with session } with
        | (.error e, after) => (.error e, closed after id keepFailed)
        | (.ok a, after) =>
          match after.session.close id true with
          | .error e => (.error (ofBake e), after)
          | .ok session => (.ok a, { after with session }) := by
  unfold within
  rw [run_bind, run_adapt, run_openKeyed]
  cases state.session.openKeyed kind key with
  | error e => rfl
  | ok opened =>
    obtain ⟨id, session⟩ := opened
    simp only [Except.mapError]
    rw [run_bind, run_attempt]
    generalize act.run.run { state with session } = r
    obtain ⟨e | a, after⟩ := r
    · simp only
      rw [run_bind, run_attempt, run_close]
      unfold closed
      cases after.session.close id keepFailed <;> rfl
    · simp only
      rw [run_bind, run_adapt, run_close]
      cases after.session.close id true <;> rfl

/-- What is done inside a source succeeds if opening it, the thing itself and closing it do. -/
theorem gives_within {ofBake : BakeError → ε} {kind : SiteKind} {key : SiteKey} {keepFailed : Bool}
    {act : BuildM ε α} :
    Gives (within ofBake kind key keepFailed act) state a after ↔
      ∃ id opened mid closed, state.session.openKeyed kind key = .ok (id, opened) ∧
        Gives act { state with session := opened } a mid ∧ mid.session.close id true = .ok closed ∧
          after = { mid with session := closed } := by
  simp only [gives_iff, run_within]
  cases state.session.openKeyed kind key with
  | error e => simp
  | ok r =>
    obtain ⟨id, opened⟩ := r
    simp only [Except.ok.injEq, Prod.mk.injEq]
    generalize hrun : act.run.run { state with session := opened } = r
    obtain ⟨e | a', mid⟩ := r
    · constructor
      · rintro ⟨h, -⟩
        cases h
      · rintro ⟨_, _, mid', _, ⟨rfl, rfl⟩, ⟨h, -⟩, -⟩
        rw [hrun] at h
        cases h
    · constructor
      · intro h
        cases hclose : mid.session.close id true with
        | error e =>
          simp only [hclose] at h
          cases h.1
        | ok closed =>
          simp only [hclose] at h
          exact ⟨id, opened, mid, closed, ⟨rfl, rfl⟩, by rw [hrun]; exact ⟨h.1, rfl⟩, hclose, h.2.symm⟩
      · rintro ⟨_, _, mid', closed, ⟨rfl, rfl⟩, ⟨ha, hmid⟩, hclose, hafter⟩
        rw [hrun] at ha hmid
        obtain rfl : mid = mid' := hmid
        simp only [hclose]
        exact ⟨ha, hafter.symm⟩

/-- What is done inside a source that can be opened. -/
theorem gives_within_opened {ofBake : BakeError → ε} {kind : SiteKind} {key : SiteKey} {keepFailed : Bool}
    {act : BuildM ε α} {id : Option Nat} {opened : Session}
    (hopen : state.session.openKeyed kind key = .ok (id, opened)) :
    Gives (within ofBake kind key keepFailed act) state a after ↔
      ∃ mid closed, Gives act { state with session := opened } a mid ∧
        mid.session.close id true = .ok closed ∧ after = { mid with session := closed } := by
  rw [gives_within, hopen]
  constructor
  · rintro ⟨_, _, mid, closed, heq, h⟩
    cases heq
    exact ⟨mid, closed, h⟩
  · rintro ⟨mid, closed, h⟩
    exact ⟨_, _, mid, closed, rfl, h⟩

end BuildM

/-! ### Callables -/

namespace Callable

/-- Fixing leading arguments of the declared types. -/
theorem bindLeading_eq {c : Callable} {values : List Value} {rest : List ValueType}
    (h : c.signature.params = values.map Value.type ++ rest) :
    c.bindLeading values = .ok ⟨⟨rest, c.signature.returns⟩, c.bound ++ values, c.body⟩ := by
  have hdrop : c.signature.params.drop values.length = rest := by
    rw [h, List.drop_left' (by simp)]
  rw [bindLeading_eq_ok (h ▸ List.prefix_append _ _), hdrop]

end Callable

/-- What is accepted has the wanted type. -/
theorem Expr.infer_of_check {e : Expr} {params : List Param} {returns : ValueType}
    (h : e.check params returns = .ok ()) : e.infer params = .ok returns := by
  obtain ⟨actual, hactual, h⟩ := Except.bind_eq_ok_iff.1 h
  split at h
  · rename_i heq
    rw [hactual, heq]
  · cases h

namespace Request

theorem types_fullParams (r : Request) :
    r.fullParams.map (·.type) = r.proxyValues.map Value.type ++ r.params.map (·.type) := by
  simp [fullParams, proxyValues, Proxy.param, Function.comp_def]

/-- All arguments have the declared types if those that are still open do. -/
theorem types_allArgs {r : Request} {args : List Value}
    (h : args.map Value.type = r.params.map (·.type)) :
    (r.proxyValues ++ args).map Value.type = r.fullParams.map (·.type) := by
  rw [types_fullParams, List.map_append, h]

/-- The callable of an accepted tree runs the code of the flattened tree, with the values of the proxies
before the arguments. -/
theorem exists_compileDirect {r : Request} {e : Expr} (h : e.check r.fullParams r.returns = .ok ()) :
    ∃ code, e.flatten.compile (r.fullParams.map (·.name)).reverse = .ok code ∧
      r.compileDirect e = .ok ⟨⟨r.params.map (·.type), r.returns⟩, r.proxyValues, .code code⟩ := by
  have hnames : (Expr.Scope.of r.fullParams).map Prod.fst = (r.fullParams.map (·.name)).reverse := by
    simp [Expr.Scope.of, List.map_reverse]
  have htyped : e.flatten.infer r.fullParams = .ok r.returns := Expr.inferIn_flatten (Expr.infer_of_check h)
  obtain ⟨code, hcode⟩ := Expr.exists_compile htyped
  rw [hnames] at hcode
  have hbind : Callable.bindLeading ⟨Signature.of r.fullParams r.returns, [], .code code⟩ r.proxyValues =
      .ok ⟨⟨r.params.map (·.type), r.returns⟩, r.proxyValues, .code code⟩ :=
    Callable.bindLeading_eq r.types_fullParams
  refine ⟨code, hcode, ?_⟩
  rw [compileDirect, h, Callable.ofExpr, hcode]
  simp only [Except.mapError, Except.ok_bind, hbind]

end Request

/-! ### Sources that are open -/

namespace Session

variable {s : Session} {rest : List OpenSource} {id : Nat} {r : Request}

/-- A recording session with a source open. What is recorded for a source that was opened before is
suppressed. -/
def opening (s : Session) (file : FileId) : Session := { s with
  stack := ⟨s.nextId, .recording { file, suppressed := decide (file ∈ s.opened) }⟩ :: s.stack
  opened := if file ∈ s.opened then s.opened else file :: s.opened
  nextId := s.nextId + 1 }

theorem push_recording {file : FileId} (hmode : s.mode = .record) :
    s.push file = .ok (some s.nextId, s.opening file) := by
  by_cases hknown : file ∈ s.opened
  · have hcontains : s.opened.contains file = true := by simpa using hknown
    simp only [push, hmode, hcontains, enter, opening, if_true, decide_true, hknown]
  · have hcontains : s.opened.contains file = false := by simpa using hknown
    simp only [push, hmode, hcontains, enter, opening, hknown, Bool.false_eq_true, if_false, decide_false]

theorem openKeyed_recording {kind : SiteKind} {key : SiteKey} (hmode : s.mode = .record) :
    s.openKeyed kind key = .ok (some s.nextId, s.opening (FileId.identify kind key)) := push_recording hmode

/-- A serving session opens a source with the units that were loaded for it. -/
theorem openKeyed_serving {kind : SiteKind} {key : SiteKey} {units : List BakedUnit} (hmode : s.mode = .serve)
    (hunits : s.store.unitsFor (FileId.identify kind key) = .ok units) :
    s.openKeyed kind key = .ok (some s.nextId, { s with
      stack := ⟨s.nextId, .serving ⟨FileId.identify kind key, units, 0⟩⟩ :: s.stack
      nextId := s.nextId + 1 }) := by
  simp only [openKeyed, push, hmode, Serving.load, hunits, Except.ok_bind, enter]

/-- The source on top of the stack can be closed. -/
theorem close_top {context : SourceContext} (hstack : s.stack = ⟨id, context⟩ :: rest) (keep : Bool) :
    s.close (some id) keep = .ok { s with
      stack := rest, batches := s.batches ++ (remainder? keep context).toList } := by
  simp only [close, pop, hstack, if_true]

/-- A recording session is exported when no source is open. -/
theorem export_recording (hmode : s.mode = .record) (hstack : s.stack = []) :
    s.export = .ok (some (Artifacts.ofBatches s.batches), { s with batches := [] }) := by
  unfold «export»
  rw [if_neg (by simp [hmode]), hstack]
  rfl

/-- Compiling in a recording session adds a unit to the source on top of the stack. -/
theorem compile_recording {recording : Recording} {e : Expr} {callable : Callable} {body : String}
    (hmode : s.mode = .record) (hstack : s.stack = ⟨id, .recording recording⟩ :: rest)
    (hdirect : r.compileDirect e = .ok callable) (hbody : e.printUnit = .ok body) :
    s.compile e r = (.ok callable,
      { s with stack := ⟨id, .recording (recording.add body r.fullParams r.returns).2⟩ :: rest }) := by
  have hrecorded : s.compileRecorded e r = .ok (callable,
      { s with stack := ⟨id, .recording (recording.add body r.fullParams r.returns).2⟩ :: rest }) := by
    rw [compileRecorded, hdirect, Except.ok_bind, hbody]
    simp only [Except.mapError, Except.ok_bind, recordUnit, recording?, hstack, setTop]
  unfold compile
  simp only [hmode, hrecorded]

/-- Serving hands out the unit at the cursor of the source on top of the stack. -/
theorem serve_next {serving : Serving} {unit : BakedUnit}
    (hstack : s.stack = ⟨id, .serving serving⟩ :: rest)
    (hunit : serving.units[serving.cursor]? = some unit)
    (hsignature : unit.signature = Signature.of r.fullParams r.returns) :
    s.serve r = (.ok ⟨⟨r.params.map (·.type), r.returns⟩, r.proxyValues, .unit unit⟩,
      { s with stack := ⟨id, .serving { serving with cursor := serving.cursor + 1 }⟩ :: rest }) := by
  have hbind : (Callable.ofUnit unit).bindLeading r.proxyValues =
      .ok ⟨⟨r.params.map (·.type), r.returns⟩, r.proxyValues, .unit unit⟩ := by
    have hparams : (Callable.ofUnit unit).signature.params =
        r.proxyValues.map Value.type ++ r.params.map (·.type) := by
      rw [Callable.ofUnit, hsignature, Signature.of, r.types_fullParams]
    rw [Callable.bindLeading_eq hparams]
    simp [Callable.ofUnit, hsignature, Signature.of]
  have hnext : serving.next (Signature.of r.fullParams r.returns) r.proxyValues =
      (.ok ⟨⟨r.params.map (·.type), r.returns⟩, r.proxyValues, .unit unit⟩,
        { serving with cursor := serving.cursor + 1 }) := by
    unfold Serving.next
    simp only [hunit, hsignature, ne_eq, not_true_eq_false, if_false, hbind]
  unfold serve serveUnit
  simp only [serving?, hstack, hnext, setTop, Except.mapError]

/-- A unit is only handed out if it has the signature that is asked for. -/
theorem signature_of_serve {serving : Serving} {unit : BakedUnit} {c : Callable}
    (hstack : s.stack = ⟨id, .serving serving⟩ :: rest)
    (hunit : serving.units[serving.cursor]? = some unit) (h : (s.serve r).1 = .ok c) :
    unit.signature = Signature.of r.fullParams r.returns := by
  by_contra hsignature
  unfold serve serveUnit at h
  simp only [serving?, hstack, Serving.next, hunit, if_pos hsignature] at h
  cases h

end Session

end Barrage
