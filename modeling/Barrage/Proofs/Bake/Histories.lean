import Mathlib.Data.List.Induction
import Barrage.Proofs.Bake.Sessions

/-!
# Histories of sessions

Sources are opened and closed by anyone who holds a session, with numbers that are kept or with guards that
close what they opened, and nothing makes the calls come in pairs. What a session promises is therefore about
every sequence of calls. A number is given out once, the sources that are open lie on the stack in the order
of their numbers, and only the topmost can be closed. They are all of the kind that the mode asks for. A call
that fails leaves the session as it was, except that a unit which does not fit is passed while serving.

## Main definitions

* `Act`, `Answer`, `Fault` — the calls on a session, and what they come to
* `Session.perform`, `Session.after`, `Session.history` — one call, and sequences of them
* `Session.Moves` — everything a call can do to a session

## Main results

* `Session.moves_perform` — a call does nothing else
* `Session.openings_history` — the numbers are given out in order
* `Session.orderly` — what a session promises after any sequence of calls
-/

namespace Barrage

/-- The ways in which the guard of a source ends. -/
inductive Ending where
  /-- What was recorded is kept. -/
  | close
  /-- What was recorded is dropped. -/
  | discard
  /-- The guard goes out of scope. -/
  | drop
deriving DecidableEq

/-- Whether what was recorded is kept. -/
def Ending.keeps : Ending → Bool
  | close | drop => true
  | discard => false

/-- Calls on a session. The guard of a source has a number unless the session is direct. -/
inductive Act where
  | push (file : FileId)
  | pop (id : Nat)
  | «open» (kind : SiteKind) (key : SiteKey)
  | finish (ending : Ending) (id : Option Nat)
  | compile (e : Expr) (r : Request)
  | «export»

/-- What a call that succeeds comes to. -/
inductive Answer where
  | opened (id : Option Nat)
  | closed
  | compiled (callable : Callable)
  | exported (artifacts : Option Artifacts)

/-- How a call fails. A guard that goes out of scope cannot report an error. -/
inductive Fault where
  | bake (e : BakeError)
  | compile (e : CompileError)
  | panic (message : String)

/-- Whether a source of the other kind was asked for. -/
def BakeError.IsWrongKind (e : BakeError) : Prop := ∃ expected actual, e = .wrongContextKind expected actual

namespace Fault

/-- The fault of a guard that cannot close its source. -/
def ofEnding : Ending → BakeError → Fault
  | .close, e | .discard, e => bake e
  | .drop, e => panic e.message

/-- Whether a source of the other kind was asked for. -/
def IsWrongKind : Fault → Prop
  | bake e | compile (.bake e) => e.IsWrongKind
  | compile _ | panic _ => False

end Fault

namespace Act

/-- The source that a call opens. -/
def file? : Act → Option FileId
  | push file => some file
  | «open» kind key => some (FileId.identify kind key)
  | _ => none

/-- The number of the source that a call closes, and whether what was recorded is kept. -/
def closing? : Act → Option (Nat × Bool)
  | pop id => some (id, true)
  | finish ending (some id) => some (id, ending.keeps)
  | _ => none

end Act

/-- The kind of the sources that a mode opens. -/
def BuildMode.contextKind? : BuildMode → Option ContextKind
  | direct => none
  | record => some .recording
  | serve => some .serving

theorem BuildMode.eq_record_of_contextKind? {mode : BuildMode} (h : mode.contextKind? = some .recording) :
    mode = .record := by
  cases mode with
  | record => rfl
  | direct | serve => cases h

theorem BuildMode.eq_serve_of_contextKind? {mode : BuildMode} (h : mode.contextKind? = some .serving) :
    mode = .serve := by
  cases mode with
  | serve => rfl
  | direct | record => cases h

/-- A call with its answer, between two sessions. -/
structure Exchange where
  before : Session
  act : Act
  answer : Except Fault Answer
  after : Session

namespace Exchange

/-- The number and the source that a call opened. -/
def opened? (step : Exchange) : Option (Nat × FileId) :=
  match step.act.file?, step.answer with
  | some file, .ok (.opened (some id)) => some (id, file)
  | _, _ => none

theorem opened?_eq_none {step : Exchange} (h : ∀ id, step.answer ≠ .ok (.opened (some id))) :
    step.opened? = none := by
  unfold opened?
  split
  · exact absurd ‹_› (h _)
  · rfl

/-- The numbers that were given out, with their sources. -/
def openings (steps : List Exchange) : List (Nat × FileId) := steps.filterMap opened?

theorem openings_concat (steps : List Exchange) (step : Exchange) :
    openings (steps ++ [step]) = openings steps ++ step.opened?.toList := by
  rw [openings, List.filterMap_append]
  cases h : step.opened? <;> simp [openings, h]

end Exchange

namespace Session

/-- The answer to a call that may have changed a session. If it fails, nothing has changed. -/
def settle (s : Session) (fault : BakeError → Fault) :
    Except BakeError (Answer × Session) → Except Fault Answer × Session
  | .ok (answer, after) => (.ok answer, after)
  | .error e => (.error (fault e), s)

/-- Performs a call. -/
def perform (s : Session) : Act → Except Fault Answer × Session
  | .push file => s.settle .bake ((s.push file).map fun (id, after) => (.opened id, after))
  | .open kind key => s.settle .bake ((s.openKeyed kind key).map fun (id, after) => (.opened id, after))
  | .pop id => s.settle .bake ((s.pop id true).map fun after => (.closed, after))
  | .finish ending id => s.settle (.ofEnding ending) ((s.close id ending.keeps).map fun after => (.closed, after))
  | .compile e r => (((s.compile e r).1.map .compiled).mapError .compile, (s.compile e r).2)
  | .export => s.settle .bake (s.export.map fun (artifacts, after) => (.exported artifacts, after))

/-- The step of a call. -/
def step (s : Session) (act : Act) : Exchange := ⟨s, act, (s.perform act).1, (s.perform act).2⟩

/-- The session after some calls. -/
def after (s : Session) (acts : List Act) : Session := acts.foldl (fun s act => (s.perform act).2) s

/-- The steps of some calls. -/
def history (s : Session) : List Act → List Exchange
  | [] => []
  | act :: acts => s.step act :: history (s.perform act).2 acts

theorem after_append (s : Session) (acts acts' : List Act) :
    s.after (acts ++ acts') = (s.after acts).after acts' := List.foldl_append

theorem after_concat (s : Session) (acts : List Act) (act : Act) :
    s.after (acts ++ [act]) = ((s.after acts).perform act).2 := s.after_append acts [act]

theorem history_append (s : Session) (acts acts' : List Act) :
    s.history (acts ++ acts') = s.history acts ++ (s.after acts).history acts' := by
  induction acts generalizing s with
  | nil => rfl
  | cons act acts ih => exact congrArg (_ :: ·) (ih _)

theorem history_concat (s : Session) (acts : List Act) (act : Act) :
    s.history (acts ++ [act]) = s.history acts ++ [(s.after acts).step act] := s.history_append acts [act]

end Session

/-! ### Errors about the kind of a source -/

theorem Fault.isWrongKind_ofEnding {ending : Ending} {e : BakeError} (h : (ofEnding ending e).IsWrongKind) :
    e.IsWrongKind := by
  cases ending with
  | close | discard => exact h
  | drop => exact h.elim

theorem Store.not_isWrongKind_unitAt {store : Store} {file : FileId} {ref : UnitRef} {e : BakeError}
    (h : store.unitAt file ref = .error e) : ¬ e.IsWrongKind := by
  rintro ⟨_, _, rfl⟩
  unfold unitAt at h
  split at h
  · split at h <;> cases h
  · cases h

theorem Store.not_isWrongKind_mapM {store : Store} {file : FileId} {refs : List UnitRef} {e : BakeError}
    (h : refs.mapM (store.unitAt file) = .error e) : ¬ e.IsWrongKind := by
  induction refs with
  | nil => cases h
  | cons ref refs ih =>
    rw [List.mapM_cons] at h
    cases hunit : store.unitAt file ref with
    | error e' =>
      rw [hunit] at h
      cases h
      exact not_isWrongKind_unitAt hunit
    | ok unit =>
      rw [hunit] at h
      cases hunits : refs.mapM (store.unitAt file) with
      | error e' =>
        rw [hunits] at h
        cases h
        exact ih hunits
      | ok units =>
        rw [hunits] at h
        cases h

/-- A source that cannot be loaded is not of the wrong kind. -/
theorem Serving.not_isWrongKind_load {file : FileId} {store : Store} {e : BakeError}
    (h : Serving.load file store = .error e) : ¬ e.IsWrongKind := by
  have hunits : store.unitsFor file = .error e := by
    unfold load at h
    cases hunits : store.unitsFor file with
    | error e' =>
      rw [hunits] at h
      cases h
      rfl
    | ok units =>
      rw [hunits] at h
      cases h
  unfold Store.unitsFor at hunits
  split at hunits
  · cases hunits
  · exact Store.not_isWrongKind_mapM hunits

theorem Serving.file_of_load {file : FileId} {store : Store} {serving : Serving}
    (h : Serving.load file store = .ok serving) : serving.file = file := by
  unfold load at h
  obtain ⟨units, -, h⟩ := Except.bind_eq_ok_iff.1 h
  cases h
  rfl

/-- A unit that cannot be handed out says nothing about kinds. -/
theorem Serving.not_isWrongKind_next {serving : Serving} {expected : Signature} {proxies : List Value}
    {e : BakeError} (h : (serving.next expected proxies).1 = .error e) : ¬ e.IsWrongKind := by
  rintro ⟨_, _, rfl⟩
  unfold next at h
  split at h
  · simp only [Except.error.injEq] at h
    split at h <;> cases h
  · dsimp only at h
    split at h
    · cases h
    · split at h <;> cases h

/-- What is compiled directly fails before a source is asked for. -/
theorem Request.not_isWrongKind_compileDirect {r : Request} {e : Expr} {err : CompileError}
    (h : r.compileDirect e = .error err) : ¬ (Fault.compile err).IsWrongKind := by
  rw [compileDirect] at h
  cases hcheck : e.check r.fullParams r.returns with
  | error err' =>
    rw [hcheck] at h
    cases h
    exact id
  | ok _ =>
    rw [hcheck] at h
    cases hcallable : Callable.ofExpr e.flatten r.fullParams r.returns with
    | error err' =>
      rw [hcallable] at h
      cases h
      exact id
    | ok callable =>
      rw [hcallable] at h
      cases hbind : callable.bindLeading r.proxyValues with
      | error err' =>
        replace h : (callable.bindLeading r.proxyValues).mapError CompileError.eval = .error err := h
        rw [hbind] at h
        cases h
        exact id
      | ok callable' =>
        replace h : (callable.bindLeading r.proxyValues).mapError CompileError.eval = .error err := h
        rw [hbind] at h
        cases h

namespace Session

/-! ### What a call can do -/

/-- What a call on a session may answer, and the session after it. -/
inductive Moves (s : Session) : Act → Except Fault Answer → Session → Prop where
  /-- A source is opened for recording. -/
  | opens {act file} (hmode : s.mode = .record) (hfile : act.file? = some file) :
      Moves s act (.ok (.opened (some s.nextId))) (s.opening file)
  /-- A source is opened for serving. -/
  | loads {act file serving} (hmode : s.mode = .serve) (hfile : act.file? = some file)
      (hload : Serving.load file s.store = .ok serving) :
      Moves s act (.ok (.opened (some s.nextId))) (s.enter (.serving serving)).2
  /-- The source on top of the stack is closed. -/
  | leaves {act id context rest keep} (hstack : s.stack = ⟨id, context⟩ :: rest)
      (hclosing : act.closing? = some (id, keep)) :
      Moves s act (.ok .closed)
        { s with stack := rest, batches := s.batches ++ (remainder? keep context).toList }
  /-- A unit is recorded in the source on top of the stack. -/
  | records {e r callable id recording rest body} (hmode : s.mode = .record)
      (hstack : s.stack = ⟨id, .recording recording⟩ :: rest) (hbody : e.printUnit = .ok body) :
      Moves s (.compile e r) (.ok (.compiled callable))
        { s with stack := ⟨id, .recording (recording.add body r.fullParams r.returns).2⟩ :: rest }
  /-- The source on top of the stack hands out a unit, or passes one that does not fit. -/
  | handsOut {e r id serving served rest answer} (hmode : s.mode = .serve)
      (hstack : s.stack = ⟨id, .serving serving⟩ :: rest) (hfile : served.file = serving.file)
      (hkind : ∀ fault, answer = .error fault → ¬ fault.IsWrongKind) :
      Moves s (.compile e r) answer { s with stack := ⟨id, .serving served⟩ :: rest }
  /-- What was kept becomes artifacts. -/
  | exports (hmode : s.mode = .record) (hstack : s.stack = []) :
      Moves s .export (.ok (.exported (some (Artifacts.ofBatches s.batches)))) { s with batches := [] }
  /-- Nothing happens. A recording session that succeeds in doing nothing ends a guard without a source. -/
  | stays {act answer} (hopened : ∀ id, answer ≠ .ok (.opened (some id)))
      (hrecord : ∀ a, answer = .ok a → s.mode = .record → a = .closed ∧ ∃ ending, act = .finish ending none)
      (hkind : ∀ fault, answer = .error fault → fault.IsWrongKind →
        ∃ source ∈ s.stack, s.mode.contextKind? ≠ some source.context.kind) :
      Moves s act answer s

variable {s t : Session} {act : Act} {acts : List Act} {answer : Except Fault Answer}
variable {id : Nat} {keep : Bool} {file : FileId}

/-- A call that fails leaves the session as it is. -/
theorem Moves.fails {fault : Fault}
    (hkind : fault.IsWrongKind → ∃ source ∈ s.stack, s.mode.contextKind? ≠ some source.context.kind) :
    s.Moves act (.error fault) s := by
  refine .stays (fun id h => ?_) (fun a h => ?_) fun fault' h hwrong => ?_
  · cases h
  · cases h
  · cases h
    exact hkind hwrong

/-- Outside recording, a call may succeed in doing nothing. -/
theorem Moves.idles {a : Answer} (hmode : s.mode ≠ .record) (hopened : ∀ id, a ≠ .opened (some id)) :
    s.Moves act (.ok a) s := by
  refine .stays (fun id h => hopened id (Except.ok.inj h)) (fun _ _ h => absurd h hmode) fun fault h => ?_
  cases h

theorem pop_eq_ok_iff :
    s.pop id keep = .ok t ↔ ∃ context rest, s.stack = ⟨id, context⟩ :: rest ∧
      t = { s with stack := rest, batches := s.batches ++ (remainder? keep context).toList } := by
  unfold pop
  cases hstack : s.stack with
  | nil => simp
  | cons source rest =>
    obtain ⟨top, context⟩ := source
    by_cases htop : top = id
    · subst htop
      simp [eq_comm]
    · simp [htop]

/-- A source can be closed exactly if it is on top of the stack. -/
theorem exists_pop_iff : (∃ t, s.pop id keep = .ok t) ↔ s.stack.head?.map (·.id) = some id := by
  simp only [pop_eq_ok_iff]
  cases hstack : s.stack with
  | nil => simp
  | cons source rest =>
    constructor
    · rintro ⟨_, context, rest', heq, -⟩
      cases heq
      rfl
    · intro h
      obtain ⟨top, context⟩ := source
      obtain rfl : top = id := by simpa using h
      exact ⟨_, context, rest, rfl, rfl⟩

theorem not_isWrongKind_pop {e : BakeError} (h : s.pop id keep = .error e) : ¬ e.IsWrongKind := by
  rintro ⟨_, _, rfl⟩
  unfold pop at h
  split at h
  · cases h
  · split at h <;> cases h

/-- A recording session records a unit or stays as it is. -/
theorem compile_record_cases (hmode : s.mode = .record) (e : Expr) (r : Request) :
    (∃ err, s.compile e r = (.error err, s) ∧
        ((Fault.compile err).IsWrongKind → ∃ source ∈ s.stack, source.context.kind = .serving)) ∨
      ∃ callable id recording rest body, s.stack = ⟨id, .recording recording⟩ :: rest ∧
        e.printUnit = .ok body ∧ s.compile e r = (.ok callable,
          { s with stack := ⟨id, .recording (recording.add body r.fullParams r.returns).2⟩ :: rest }) := by
  cases hdirect : r.compileDirect e with
  | error err =>
    refine .inl ⟨err, by simp [compile, hmode, compileRecorded, hdirect], fun hwrong => ?_⟩
    exact (r.not_isWrongKind_compileDirect hdirect hwrong).elim
  | ok callable =>
    cases hbody : e.printUnit with
    | error err =>
      refine .inl ⟨.print err, ?_, False.elim⟩
      simp [compile, hmode, compileRecorded, hdirect, hbody, Except.mapError]
    | ok body =>
      cases hstack : s.stack with
      | nil =>
        refine .inl ⟨.bake (.noActiveContext .recording), ?_, ?_⟩
        · simp [compile, hmode, compileRecorded, hdirect, hbody, Except.mapError, recordUnit, recording?, hstack]
        · rintro ⟨_, _, ⟨⟩⟩
      | cons source rest =>
        obtain ⟨id, recording | served⟩ := source
        · exact .inr ⟨callable, id, recording, rest, body, rfl, rfl, compile_recording hmode hstack hdirect hbody⟩
        · refine .inl ⟨.bake (.wrongContextKind .recording .serving), ?_, fun _ => ⟨_, List.mem_cons_self, rfl⟩⟩
          simp [compile, hmode, compileRecorded, hdirect, hbody, Except.mapError, recordUnit, recording?, hstack,
            SourceContext.kind]

theorem file_next (serving : Serving) (expected : Signature) (proxies : List Value) :
    (serving.next expected proxies).2.file = serving.file := by
  unfold Serving.next
  split
  · rfl
  · dsimp only
    split
    · rfl
    · split <;> rfl

/-- Opening a source, by its id or by its key. -/
theorem moves_push (hfile : act.file? = some file)
    (hperform : s.perform act = s.settle .bake ((s.push file).map fun (id, after) => (.opened id, after))) :
    s.Moves act (s.perform act).1 (s.perform act).2 := by
  rw [hperform]
  cases hmode : s.mode with
  | direct =>
    have hpush : s.push file = .ok (none, s) := by simp only [push, hmode]
    rw [hpush]
    refine .idles (by simp [hmode]) fun id h => ?_
    cases h
  | record =>
    rw [push_recording hmode]
    exact .opens hmode hfile
  | serve =>
    cases hload : Serving.load file s.store with
    | error e =>
      have hpush : s.push file = .error e := by simp only [push, hmode, hload]
      rw [hpush]
      exact .fails fun hwrong => (Serving.not_isWrongKind_load hload hwrong).elim
    | ok serving =>
      have hpush : s.push file = .ok (some s.nextId, (s.enter (.serving serving)).2) := by
        simp only [push, hmode, hload, enter]
      rw [hpush]
      exact .loads hmode hfile hload

/-- Closing a source, by its number or with its guard. -/
theorem moves_pop (fault : BakeError → Fault) (hclosing : act.closing? = some (id, keep))
    (hfault : ∀ e, (fault e).IsWrongKind → e.IsWrongKind)
    (hperform : s.perform act = s.settle fault ((s.pop id keep).map fun after => (.closed, after))) :
    s.Moves act (s.perform act).1 (s.perform act).2 := by
  rw [hperform]
  cases hpop : s.pop id keep with
  | error e =>
    exact .fails fun hwrong => (not_isWrongKind_pop hpop (hfault _ hwrong)).elim
  | ok t =>
    obtain ⟨context, rest, hstack, rfl⟩ := pop_eq_ok_iff.1 hpop
    exact .leaves hstack hclosing

/-- Compiling while serving hands out the next unit, if there is a source to take it from. -/
theorem moves_serve (hmode : s.mode = .serve) (e : Expr) (r : Request) :
    s.Moves (.compile e r) (((s.serve r).1.map .compiled).mapError .compile) (s.serve r).2 := by
  rw [serve, serveUnit]
  cases hstack : s.stack with
  | nil =>
    simp only [serving?, hstack]
    refine .fails ?_
    rintro ⟨_, _, ⟨⟩⟩
  | cons source rest =>
    obtain ⟨id, recording | serving⟩ := source
    · simp only [serving?, hstack]
      refine .fails fun _ => ⟨_, hstack ▸ List.mem_cons_self, ?_⟩
      simp [hmode, SourceContext.kind, BuildMode.contextKind?]
    · simp only [serving?, hstack, setTop]
      refine .handsOut hmode hstack (file_next serving _ _) fun fault hfault hwrong => ?_
      cases hnext : (serving.next (Signature.of r.fullParams r.returns) r.proxyValues).1 with
      | error e =>
        rw [hnext] at hfault
        cases hfault
        exact Serving.not_isWrongKind_next hnext hwrong
      | ok callable =>
        rw [hnext] at hfault
        cases hfault

theorem moves_compile (s : Session) (e : Expr) (r : Request) :
    s.Moves (.compile e r) (((s.compile e r).1.map .compiled).mapError .compile) (s.compile e r).2 := by
  cases hmode : s.mode with
  | direct =>
    have hcompile : s.compile e r = (r.compileDirect e, s) := by simp only [compile, hmode]
    rw [hcompile]
    cases hdirect : r.compileDirect e with
    | error err =>
      exact .fails fun hwrong => (r.not_isWrongKind_compileDirect hdirect hwrong).elim
    | ok callable =>
      refine .idles (by simp [hmode]) fun id h => ?_
      cases h
  | record =>
    obtain ⟨err, hcompile, hkind⟩ | ⟨callable, id, recording, rest, body, hstack, hbody, hcompile⟩ :=
      compile_record_cases hmode e r
    · rw [hcompile]
      refine .fails fun hwrong => ?_
      obtain ⟨source, hsource, hserving⟩ := hkind hwrong
      exact ⟨source, hsource, by simp [hmode, hserving, BuildMode.contextKind?]⟩
    · rw [hcompile]
      exact .records hmode hstack hbody
  | serve =>
    have hcompile : s.compile e r = s.serve r := by simp only [compile, hmode]
    rw [hcompile]
    exact moves_serve hmode e r

theorem moves_export (s : Session) : s.Moves .export (s.perform .export).1 (s.perform .export).2 := by
  by_cases hmode : s.mode = .record
  · cases hstack : s.stack with
    | nil =>
      rw [perform, export_recording hmode hstack]
      exact .exports hmode hstack
    | cons source rest =>
      have hexport : s.export = .error (.contextsStillOpen s.depth) := by
        simp [«export», hmode, hstack]
      rw [perform, hexport]
      refine .fails ?_
      rintro ⟨_, _, ⟨⟩⟩
  · have hexport : s.export = .ok (none, s) := by simp [«export», hmode]
    rw [perform, hexport]
    refine .idles hmode fun id h => ?_
    cases h

/-- A call does nothing else. -/
theorem moves_perform (s : Session) (act : Act) : s.Moves act (s.perform act).1 (s.perform act).2 := by
  cases act with
  | push file => exact moves_push rfl rfl
  | «open» kind key => exact moves_push rfl rfl
  | pop id => exact moves_pop .bake rfl (fun _ h => h) rfl
  | finish ending id =>
    cases id with
    | none =>
      refine .stays (fun id h => ?_) (fun a h _ => ⟨(Except.ok.inj h).symm, ending, rfl⟩) fun fault h => ?_
      all_goals cases h
    | some id => exact moves_pop (.ofEnding ending) rfl (fun _ => Fault.isWrongKind_ofEnding) rfl
  | compile e r => exact s.moves_compile e r
  | «export» => exact s.moves_export

/-! ### The stack -/

/-- The number, the source and the kind of everything on the stack. -/
def labels (s : Session) : List (Nat × FileId × ContextKind) :=
  s.stack.map fun source => (source.id, source.context.file, source.context.kind)

/-- A call opens a source under the next number, or it closes the topmost at most. -/
theorem Moves.labels_cases (h : s.Moves act answer t) :
    t.mode = s.mode ∧
      ((∃ file kind, Exchange.opened? ⟨s, act, answer, t⟩ = some (s.nextId, file) ∧
          s.mode.contextKind? = some kind ∧ t.nextId = s.nextId + 1 ∧
            t.labels = (s.nextId, file, kind) :: s.labels) ∨
        (Exchange.opened? ⟨s, act, answer, t⟩ = none ∧ t.nextId = s.nextId ∧ t.labels <:+ s.labels)) := by
  cases h with
  | @opens _ file hmode hfile =>
    exact ⟨rfl, .inl ⟨file, .recording, by simp [Exchange.opened?, hfile], by rw [hmode]; rfl, rfl, rfl⟩⟩
  | @loads _ file serving hmode hfile hload =>
    have hserving : serving.file = file := Serving.file_of_load hload
    refine ⟨rfl, .inl ⟨file, .serving, by simp [Exchange.opened?, hfile], by rw [hmode]; rfl, rfl, ?_⟩⟩
    simp [labels, enter, SourceContext.file, SourceContext.kind, hserving]
  | leaves hstack hclosing =>
    refine ⟨rfl, .inr ⟨?_, rfl, ?_⟩⟩
    · simp [Exchange.opened?]
    · simp [labels, hstack]
  | records hmode hstack hbody =>
    refine ⟨rfl, .inr ⟨rfl, rfl, ?_⟩⟩
    simp [labels, hstack, SourceContext.file, SourceContext.kind, Recording.add]
  | handsOut hmode hstack hfile hkind =>
    refine ⟨rfl, .inr ⟨rfl, rfl, ?_⟩⟩
    simp [labels, hstack, SourceContext.file, SourceContext.kind, hfile]
  | exports hmode hstack => exact ⟨rfl, .inr ⟨rfl, rfl, List.suffix_refl _⟩⟩
  | stays hopened hrecord hkind => exact ⟨rfl, .inr ⟨Exchange.opened?_eq_none hopened, rfl, List.suffix_refl _⟩⟩

/-- The sources that are open have different numbers, the later the higher, and the kind of the mode. -/
structure Disciplined (s : Session) : Prop where
  descending : (s.stack.map (·.id)).Pairwise (· > ·)
  below : ∀ source ∈ s.stack, source.id < s.nextId
  kinds : ∀ source ∈ s.stack, s.mode.contextKind? = some source.context.kind

theorem disciplined_iff_labels :
    s.Disciplined ↔ s.labels.Pairwise (fun l l' => l.1 > l'.1) ∧
      ∀ l ∈ s.labels, l.1 < s.nextId ∧ s.mode.contextKind? = some l.2.2 := by
  constructor
  · intro h
    have hdescending := List.pairwise_map.1 h.descending
    refine ⟨List.pairwise_map.2 hdescending, fun l hl => ?_⟩
    obtain ⟨source, hsource, rfl⟩ := List.mem_map.1 hl
    exact ⟨h.below source hsource, h.kinds source hsource⟩
  · rintro ⟨hdescending, hlabels⟩
    have hmem {source : OpenSource} (h : source ∈ s.stack) := hlabels _ (List.mem_map_of_mem h)
    replace hdescending := List.pairwise_map.1 hdescending
    exact ⟨List.pairwise_map.2 hdescending, fun _ h => (hmem h).1, fun _ h => (hmem h).2⟩

theorem disciplined_start (mode : BuildMode) (store : Store) : Disciplined { mode, store } :=
  ⟨.nil, List.forall_mem_nil _, List.forall_mem_nil _⟩

theorem Moves.disciplined (hmoves : s.Moves act answer t) (h : s.Disciplined) : t.Disciplined := by
  obtain ⟨hdescending, hlabels⟩ := disciplined_iff_labels.1 h
  obtain ⟨hmode, ⟨file, kind, -, hkind, hnext, ht⟩ | ⟨-, hnext, hsuffix⟩⟩ := hmoves.labels_cases
  · rw [disciplined_iff_labels, ht, hmode, hnext]
    refine ⟨List.pairwise_cons.2 ⟨fun l hl => (hlabels l hl).1, hdescending⟩, fun l hl => ?_⟩
    obtain rfl | hl := List.mem_cons.1 hl
    · exact ⟨Nat.lt_succ_self _, hkind⟩
    · exact ⟨Nat.lt_succ_of_lt (hlabels l hl).1, (hlabels l hl).2⟩
  · rw [disciplined_iff_labels, hmode, hnext]
    exact ⟨hdescending.sublist hsuffix.sublist, fun l hl => hlabels l (hsuffix.subset hl)⟩

theorem disciplined_after (h : s.Disciplined) (acts : List Act) : (s.after acts).Disciplined := by
  induction acts generalizing s with
  | nil => exact h
  | cons act acts ih => exact ih ((s.moves_perform act).disciplined h)

theorem mode_after (s : Session) (acts : List Act) : (s.after acts).mode = s.mode := by
  induction acts generalizing s with
  | nil => rfl
  | cons act acts ih => exact (ih _).trans (s.moves_perform act).labels_cases.1

/-- The numbers are given out in order. -/
theorem openings_history (hstart : s.nextId = 0) (acts : List Act) :
    (Exchange.openings (s.history acts)).map Prod.fst = List.range (s.after acts).nextId := by
  induction acts using List.reverseRecOn with
  | nil => simp [history, Exchange.openings, after, hstart]
  | append_singleton acts act ih =>
    rw [history_concat, Exchange.openings_concat, List.map_append, ih, after_concat]
    -- A call gives out the next number or none.
    obtain ⟨-, ⟨file, kind, hopened, -, hnext, -⟩ | ⟨hopened, hnext, -⟩⟩ :=
      ((s.after acts).moves_perform act).labels_cases
    · rw [step, hopened, hnext, List.range_succ]
      rfl
    · rw [step, hopened, hnext]
      exact List.append_nil _

/-- What is open under a number that was given out before was open then, for the same source. -/
theorem mem_labels_of_mem_after {label : Nat × FileId × ContextKind} (hlabel : label ∈ (s.after acts).labels)
    (hbefore : label.1 < s.nextId) : label ∈ s.labels := by
  -- A new source gets the next number, which is not below it; the sources below it were there before.
  induction acts generalizing s with
  | nil => exact hlabel
  | cons act acts ih =>
    obtain ⟨-, ⟨file, kind, -, -, hnext, hlabels⟩ | ⟨-, hnext, hsuffix⟩⟩ := (s.moves_perform act).labels_cases
    · have hmem := ih (s := (s.perform act).2) hlabel (by omega)
      rw [hlabels] at hmem
      obtain rfl | hmem := List.mem_cons.1 hmem
      · exact absurd hbefore (Nat.lt_irrefl _)
      · exact hmem
    · exact hsuffix.subset (ih (s := (s.perform act).2) hlabel (by omega))

/-! ### Calls that fail -/

/-- A source is closed exactly if it is on top of the stack. -/
theorem exists_perform_closing_iff (h : act.closing? = some (id, keep)) :
    (∃ answer, (s.perform act).1 = .ok answer) ↔ s.stack.head?.map (·.id) = some id := by
  have hsettle (fault : BakeError → Fault) :
      (∃ answer, (s.settle fault ((s.pop id keep).map fun after => (.closed, after))).1 = .ok answer) ↔
        ∃ t, s.pop id keep = .ok t := by
    cases s.pop id keep <;> simp [settle, Except.map]
  cases act with
  | pop id' =>
    cases h
    exact (hsettle .bake).trans exists_pop_iff
  | finish ending id? =>
    cases id? with
    | none => cases h
    | some id' =>
      cases h
      exact (hsettle (.ofEnding ending)).trans exists_pop_iff
  | push | «open» | compile | «export» => cases h

/-- What is closed is taken off the stack. -/
theorem stack_of_perform_closing {a : Answer} (h : act.closing? = some (id, keep))
    (hanswer : (s.perform act).1 = .ok a) : (s.perform act).2.stack = s.stack.tail := by
  have hsettle (fault : BakeError → Fault)
      (hok : (s.settle fault ((s.pop id keep).map fun after => (.closed, after))).1 = .ok a) :
      (s.settle fault ((s.pop id keep).map fun after => (.closed, after))).2.stack = s.stack.tail := by
    cases hpop : s.pop id keep with
    | error e =>
      rw [hpop] at hok
      cases hok
    | ok t =>
      obtain ⟨context, rest, hstack, rfl⟩ := pop_eq_ok_iff.1 hpop
      rw [hstack]
      rfl
  cases act with
  | pop id' =>
    cases h
    exact hsettle .bake hanswer
  | finish ending id? =>
    cases id? with
    | none => cases h
    | some id' =>
      cases h
      exact hsettle (.ofEnding ending) hanswer
  | push | «open» | compile | «export» => cases h

/-- What is opened is put on the stack with the next number. -/
theorem Moves.stack_of_opened (hmoves : s.Moves act answer t) (hfile : act.file? = some file)
    (hanswer : answer = .ok (.opened (some id))) :
    ∃ context, id = s.nextId ∧ t.stack = ⟨id, context⟩ :: s.stack := by
  cases hmoves with
  | opens | loads =>
    cases hanswer
    exact ⟨_, rfl, rfl⟩
  | leaves | exports => cases hanswer
  | records | handsOut => cases hfile
  | stays hopened => exact absurd hanswer (hopened id)

/-- A call that fails changes nothing, unless a unit is passed while serving. -/
theorem Moves.eq_of_error {fault : Fault} (hmoves : s.Moves act answer t) (hanswer : answer = .error fault)
    (hserve : s.mode = .serve → ∀ e r, act ≠ .compile e r) : t = s := by
  cases hmoves with
  | opens | loads | leaves | records | exports => cases hanswer
  | handsOut hmode => exact absurd rfl (hserve hmode _ _)
  | stays => rfl

theorem Moves.not_isWrongKind {fault : Fault} (hmoves : s.Moves act answer t) (h : s.Disciplined)
    (hanswer : answer = .error fault) : ¬ fault.IsWrongKind := by
  cases hmoves with
  | opens | loads | leaves | records | exports => cases hanswer
  | handsOut _ _ _ hkind => exact hkind fault hanswer
  -- Such an error means that some source is not of the kind of the mode.
  | stays _ _ hkind =>
    intro hwrong
    obtain ⟨source, hsource, hne⟩ := hkind fault hanswer hwrong
    exact hne (h.kinds source hsource)

/-- A recording is only refused by a serving session that has a source open. -/
theorem Disciplined.recording?_eq_error (h : s.Disciplined) {e : BakeError} (he : s.recording? = .error e) :
    s.mode = .serve ∧ e = .wrongContextKind .recording .serving := by
  match hstack : s.stack with
  | [] =>
    simp only [recording?, hstack] at he
    cases he
  | ⟨id, .recording r⟩ :: rest =>
    simp only [recording?, hstack] at he
    cases he
  | ⟨id, .serving served⟩ :: rest =>
    simp only [recording?, hstack] at he
    cases he
    have hkind := h.kinds _ (hstack ▸ List.mem_cons_self)
    exact ⟨BuildMode.eq_serve_of_contextKind? hkind, rfl⟩

/-- A serving context is only refused by a recording session that has a source open. -/
theorem Disciplined.serving?_eq_error (h : s.Disciplined) {e : BakeError} (he : s.serving? = .error e) :
    s.mode = .record ∧ e = .wrongContextKind .serving .recording := by
  match hstack : s.stack with
  | [] =>
    simp only [serving?, hstack] at he
    cases he
  | ⟨id, .serving served⟩ :: rest =>
    simp only [serving?, hstack] at he
    cases he
  | ⟨id, .recording r⟩ :: rest =>
    simp only [serving?, hstack] at he
    cases he
    have hkind := h.kinds _ (hstack ▸ List.mem_cons_self)
    exact ⟨BuildMode.eq_record_of_contextKind? hkind, rfl⟩

/-! ### Sequences of calls -/

/-- What a session promises after some calls. -/
structure Orderly (start : Session) (acts : List Act) : Prop where
  /-- The sources on the stack have different numbers, the later the higher, and the kind of the mode. -/
  disciplined : (start.after acts).Disciplined
  /-- The numbers are given out in order, each of them once. -/
  numbered : (Exchange.openings (start.history acts)).map Prod.fst = List.range (start.after acts).nextId
  /-- A number that was given out and is no longer on the stack does not come back. -/
  settled : ∀ earlier later, acts = earlier ++ later → ∀ source ∈ (start.after acts).stack,
    source.id < (start.after earlier).nextId → ∃ source' ∈ (start.after earlier).stack, source'.id = source.id
  /-- A recording is only refused if it is asked for while serving. -/
  recording_refused : ∀ e, (start.after acts).recording? = .error e →
    start.mode = .serve ∧ e = .wrongContextKind .recording .serving
  /-- A serving context is only refused if it is asked for while recording. -/
  serving_refused : ∀ e, (start.after acts).serving? = .error e →
    start.mode = .record ∧ e = .wrongContextKind .serving .recording
  /-- No other call finds a source of the wrong kind. -/
  kind_right : ∀ act fault, ((start.after acts).perform act).1 = .error fault → ¬ fault.IsWrongKind
  /-- What is to be closed is closed exactly if it is on top of the stack. -/
  closes_iff : ∀ act id keep, act.closing? = some (id, keep) →
    ((∃ answer, ((start.after acts).perform act).1 = .ok answer) ↔
      (start.after acts).stack.head?.map (·.id) = some id)
  /-- What is opened is put on top of the stack, with the next number. -/
  opens : ∀ act file id, act.file? = some file → ((start.after acts).perform act).1 = .ok (.opened (some id)) →
    ∃ context, id = (start.after acts).nextId ∧
      ((start.after acts).perform act).2.stack = ⟨id, context⟩ :: (start.after acts).stack
  /-- What is closed is taken off the stack. -/
  closes : ∀ act id keep answer, act.closing? = some (id, keep) → ((start.after acts).perform act).1 = .ok answer →
    ((start.after acts).perform act).2.stack = (start.after acts).stack.tail
  /-- A call that fails changes nothing. Only in a serving session, compiling may pass a unit. -/
  unchanged : ∀ act fault, ((start.after acts).perform act).1 = .error fault →
    (start.mode = .serve → ∀ e r, act ≠ .compile e r) → ((start.after acts).perform act).2 = start.after acts

/-- Every session is orderly, whatever is done with it. -/
theorem orderly (mode : BuildMode) (store : Store) (acts : List Act) : Orderly { mode, store } acts := by
  have hdisciplined := disciplined_after (disciplined_start mode store) acts
  have hmode := mode_after { mode, store } acts
  have hmoves := ((after { mode, store } acts)).moves_perform
  constructor
  case disciplined => exact hdisciplined
  case numbered => exact openings_history rfl acts
  case settled =>
    rintro earlier later rfl source hsource hbefore
    rw [after_append] at hsource
    have hmem := mem_labels_of_mem_after (List.mem_map_of_mem hsource) hbefore
    obtain ⟨source', hsource', heq⟩ := List.mem_map.1 hmem
    exact ⟨source', hsource', congrArg Prod.fst heq⟩
  case recording_refused => exact fun e he => hmode ▸ hdisciplined.recording?_eq_error he
  case serving_refused => exact fun e he => hmode ▸ hdisciplined.serving?_eq_error he
  case kind_right => exact fun act fault hfault => (hmoves act).not_isWrongKind hdisciplined hfault
  case closes_iff => exact fun act id keep hclosing => exists_perform_closing_iff hclosing
  case opens => exact fun act file id hfile hanswer => (hmoves act).stack_of_opened hfile hanswer
  case closes => exact fun act id keep answer hclosing hanswer => stack_of_perform_closing hclosing hanswer
  case unchanged => exact fun act fault hfault hserve => (hmoves act).eq_of_error hfault (hmode ▸ hserve)

/-- A source inside another one is closed before it, no number is used twice, and nothing is exported while a source
is open. -/
example :
    (recording.history [.push ⟨"a"⟩, .push ⟨"b"⟩, .pop 0, .pop 1, .export, .pop 1, .finish .close (some 0), .push ⟨"a"⟩,
        .finish .drop (some 2), .export]).map (fun step => (step.answer.isOk, step.after.stack.map (·.id))) =
      [(true, [0]), (true, [1, 0]), (false, [1, 0]), (true, [0]), (false, [0]), (false, [0]), (true, []), (true, [2]),
        (true, []), (true, [])] := by
  rfl

end Session

end Barrage
