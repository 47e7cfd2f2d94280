import Mathlib
import Barrage.Proofs.Pattern.Compiling

/-!
# Calls that fail while recording

A call that fails in a recording session leaves the open sources and the recordings as they were, whatever was
compiled before it failed. The name of its source stays known, though: what is recorded under that name later
counts as a copy and is suppressed. So leaving out the calls that fail changes nothing that is exported as long
as none of the sources of failed calls is recorded afterwards, and a document that is mended and loaded again
is not exported.

A call that fails may have made timers before it failed. Later texts are then read over other host objects, and
their trees hold other handles for the same names; what is recorded of them is the same.

## Main definitions

* `Session.missed` — a recording session after a source that was given up
* `BuildCall`, `BuildM.runCalls` — calls that compile sources of their own, one after the other
* `BuildM.succeeding` — the calls that succeed
* `BuildM.Knows`, `BuildM.OpensKnown` — two sessions with the same recordings, one of which knows more sources

## Main results

* `BuildCall.session_of_error` — what is left of a call that fails
* `BuildCall.gives_run_alike` — a call that succeeds, over other host objects with the same entities
* `BuildM.runCalls_succeeding` — leaving out the calls that fail
* `BuildM.mended_not_exported` — a mended text that is not exported
-/

namespace Barrage

open Chunk Barrage.Expr

variable {α β δ ε : Type}

namespace BuildM

/-- Packing a result does not fail. -/
theorem error_of_bind_pure {x : BuildM ε α} {g : α → β} {state after : BuildState} {err : ε}
    (h : (x >>= fun a => pure (g a)).run.run state = (.error err, after)) :
    x.run.run state = (.error err, after) := by
  rw [run_bind] at h
  generalize x.run.run state = r at h ⊢
  obtain ⟨e | a, mid⟩ := r
  · cases h
    rfl
  · cases h

theorem error_of_adapt {f : ε → δ} {x : BuildM ε α} {state after : BuildState} {err : δ}
    (h : (x.adapt f).run.run state = (.error err, after)) : ∃ err', x.run.run state = (.error err', after) := by
  rw [run_adapt] at h
  generalize x.run.run state = r at h ⊢
  obtain ⟨e | a, mid⟩ := r
  · cases h
    exact ⟨e, rfl⟩
  · cases h

end BuildM

open BuildM

/-! ### A source that is open -/

namespace Session

/-- A session in which at most the recording on top of the stack has changed. -/
def OnTop (s : Session) (id : Nat) (rest : List OpenSource) (state : BuildState) : Prop :=
  ∃ recording, state.session = { s with stack := ⟨id, .recording recording⟩ :: rest }

/-- Compiling in a recording session adds a unit or changes nothing. -/
theorem compile_recording_cases {s : Session} {recording : Recording} {id : Nat} {rest : List OpenSource}
    (hmode : s.mode = .record) (hstack : s.stack = ⟨id, .recording recording⟩ :: rest) (e : Expr) (r : Request) :
    (∃ err, s.compile e r = (.error err, s)) ∨ ∃ c recording',
      s.compile e r = (.ok c, { s with stack := ⟨id, .recording recording'⟩ :: rest }) := by
  obtain ⟨err, hcompile, -⟩ | ⟨c, id', recording', rest', body, hstack', -, hcompile⟩ := compile_record_cases hmode e r
  · exact .inl ⟨err, hcompile⟩
  · obtain ⟨⟨rfl, -⟩, rfl⟩ : (id = id' ∧ recording = recording') ∧ rest = rest' := by
      simpa [hstack] using hstack'
    exact .inr ⟨c, _, hcompile⟩

/-- A recording session after a source that was given up: only its name is known. -/
def missed (s : Session) (file : FileId) : Session := { s with
  opened := if file ∈ s.opened then s.opened else file :: s.opened
  nextId := s.nextId + 1 }

end Session

namespace BuildM

variable {s : Session} {id : Nat} {rest : List OpenSource} (hmode : s.mode = .record)

include hmode

/-- Compiling a text in a recording session changes at most the recording on top, and nothing if it fails. -/
theorem compileSource_onTop (source : String) (r : Request) {state : BuildState} (h : s.OnTop id rest state) :
    s.OnTop id rest ((compileSource source r).run.run state).2 ∧
      ∀ err after, (compileSource source r).run.run state = (.error err, after) →
        after.session = state.session := by
  obtain ⟨recording, hsession⟩ := h
  have hrecord : state.session.mode = .record := by rw [hsession]; exact hmode
  rw [run_compileSource, if_neg (by rw [hrecord]; decide), run_bind, run_parse]
  cases (Expr.parseIn state.hosts source).1 with
  | error err =>
    refine ⟨⟨recording, hsession⟩, fun err' after h => ?_⟩
    cases h
    rfl
  | ok e =>
    simp only [Except.mapError, run_compile]
    have hstack : state.session.stack = ⟨id, .recording recording⟩ :: rest := by rw [hsession]
    rcases Session.compile_recording_cases hrecord hstack e r with ⟨err, hcompile⟩ | ⟨c, recording', hcompile⟩
    · rw [hcompile]
      refine ⟨⟨recording, hsession⟩, fun err' after h => ?_⟩
      cases h
      rfl
    · rw [hcompile]
      refine ⟨⟨recording', by rw [hsession]⟩, fun err' after h => ?_⟩
      cases h

omit hmode in
/-- What is left of a source that fails, if its recording is dropped or has no units. -/
theorem session_of_within_error {ofBake : BakeError → ε} {kind : SiteKind} {key : SiteKey} {keepFailed : Bool}
    {act : BuildM ε α} {state after : BuildState} {err : ε} (hrecord : state.session.mode = .record)
    (hact : Preserves ((state.session.opening (FileId.identify kind key)).OnTop state.session.nextId
      state.session.stack) act)
    (hkeep : keepFailed = true → ∀ hosts err after,
      act.run.run ⟨state.session.opening (FileId.identify kind key), hosts⟩ = (.error err, after) →
        after.session = state.session.opening (FileId.identify kind key))
    (h : (within ofBake kind key keepFailed act).run.run state = (.error err, after)) :
    after.session = state.session.missed (FileId.identify kind key) := by
  rw [run_within, Session.openKeyed_recording hrecord] at h
  dsimp only at h
  have hmid := hact ⟨state.session.opening (FileId.identify kind key), state.hosts⟩ ⟨_, rfl⟩
  have hfailed := fun hkeepFailed => hkeep hkeepFailed state.hosts
  generalize act.run.run ⟨state.session.opening (FileId.identify kind key), state.hosts⟩ = r at h hmid hfailed
  obtain ⟨e | a, mid⟩ := r
  · obtain ⟨recording, hmid⟩ := hmid
    dsimp only at h hmid
    unfold closed at h
    rw [Session.close_top (by rw [hmid]) keepFailed] at h
    cases h
    cases keepFailed with
    | false =>
      rw [hmid]
      simp only [Session.opening, Session.missed, Session.remainder?, Bool.false_eq_true, if_false,
        Option.toList_none, List.append_nil]
    | true =>
      -- A failed recording that is kept has no units, so nothing of it stays.
      have hsame := hfailed rfl _ mid rfl
      have htop := congrArg Session.stack (hsame.symm.trans hmid)
      simp only [Session.opening, List.cons.injEq, OpenSource.mk.injEq, SourceContext.recording.injEq,
        true_and, and_true] at htop
      have hnone : recording.export? = none := by
        rw [← htop]
        simp [Recording.export?]
      rw [hsame]
      simp only [Session.opening, Session.missed, Session.remainder?, hnone, if_true, Option.toList_none,
        List.append_nil]
  · obtain ⟨recording, hmid⟩ := hmid
    dsimp only at h hmid
    rw [Session.close_top (by rw [hmid]) true] at h
    cases h

end BuildM

theorem Session.mem_opened_recorded {s : Session} {file other : FileId} {xs : List (Request × Expr)} :
    other ∈ (s.recorded file xs).opened ↔ other = file ∨ other ∈ s.opened := by
  unfold Session.recorded
  split
  · exact ⟨.inr, fun h => h.elim (fun heq => heq ▸ ‹_›) id⟩
  · exact List.mem_cons

/-! ### Calls -/

/-- A call that compiles something as a source of its own. -/
inductive BuildCall where
  | loadPattern (key text : String)
  | compileText (source : String) (r : Request)
  | compileManual (key source : String) (r : Request)

/-- What a call gives. -/
inductive Loaded where
  | pattern (p : Pattern Callable)
  | callable (c : Callable)

namespace BuildCall

/-- The source of a call. -/
def file : BuildCall → FileId
  | loadPattern key _ => FileId.identify .scriptDump (.path key)
  | compileText source _ => FileId.identify .textConversion (.text source)
  | compileManual key _ _ => FileId.identify .manualReflection (.text key)

/-- Whether a call opens its source: a document that cannot be read does not. -/
def opens : BuildCall → Bool
  | loadPattern _ text => (PatternDocument.parse? text).isSome
  | compileText _ _ | compileManual _ _ _ => true

/-- Makes a call. -/
def run : BuildCall → BuildM Failure Loaded
  | loadPattern key text => BuildM.loadPattern key text >>= fun p => pure (.pattern p)
  | compileText source r => (BuildM.compileText source r).adapt Failure.ofCompile >>= fun c => pure (.callable c)
  | compileManual key source r =>
    (BuildM.compileManual key source r).adapt Failure.ofCompile >>= fun c => pure (.callable c)

variable {c : BuildCall} {v : Loaded} {hosts : Hosts} {after : BuildState}

/-- A call that succeeds in one recording session succeeds in every other one over the same host objects. -/
theorem gives_run {s t : Session} (hs : s.mode = .record) (ht : t.mode = .record)
    (h : Gives c.run ⟨s, hosts⟩ v after) :
    ∃ xs last, after = ⟨s.recorded c.file xs, last⟩ ∧ Gives c.run ⟨t, hosts⟩ v ⟨t.recorded c.file xs, last⟩ := by
  cases c with
  | loadPattern key text =>
    obtain ⟨p, mid, hp, hpure⟩ := gives_bind.1 h
    obtain ⟨rfl, rfl⟩ := gives_pure.1 hpure
    obtain ⟨doc, numbered, es, cs, last, hdoc, hnumbered, hcompiles, hpattern, rfl⟩ :=
      (@gives_record_pattern (key, text) _ _ _ hs).1 hp
    exact ⟨_, last, rfl, gives_bind.2 ⟨_, _, (@gives_record_pattern (key, text) ⟨t, hosts⟩ _ _ ht).2
      ⟨doc, numbered, es, cs, last, hdoc, hnumbered, hcompiles, hpattern, rfl⟩, gives_pure.2 ⟨rfl, rfl⟩⟩⟩
  | compileText | compileManual =>
    obtain ⟨c, mid, hc, hpure⟩ := gives_bind.1 h
    obtain ⟨rfl, rfl⟩ := gives_pure.1 hpure
    obtain ⟨e, code, hparse, haccepts, hcode, rfl, rfl⟩ := (gives_record_keyed hs).1 (gives_adapt.1 hc)
    exact ⟨_, _, rfl, gives_bind.2 ⟨_, _, gives_adapt.2 ((gives_record_keyed ht).2
      ⟨e, code, hparse, haccepts, hcode, rfl, rfl⟩), gives_pure.2 ⟨rfl, rfl⟩⟩⟩

/-- It succeeds over other host objects with the same entities as well, and the same units are recorded. -/
theorem gives_run_alike {s t : Session} {hosts' : Hosts} (hs : s.mode = .record) (ht : t.mode = .record)
    (hentities : hosts'.entities = hosts.entities) (h : Gives c.run ⟨s, hosts⟩ v after) :
    ∃ xs v' last last', after = ⟨s.recorded c.file xs, last⟩ ∧
      Gives c.run ⟨t, hosts'⟩ v' ⟨t.recorded c.file xs, last'⟩ ∧ last'.entities = last.entities := by
  cases c with
  | loadPattern key text =>
    obtain ⟨p, mid, hp, hpure⟩ := gives_bind.1 h
    obtain ⟨rfl, rfl⟩ := gives_pure.1 hpure
    obtain ⟨doc, numbered, es, cs, last, hdoc, hnumbered, hcompiles, -, rfl⟩ :=
      (@gives_record_pattern (key, text) _ _ _ hs).1 hp
    obtain ⟨es', cs', last', hcompiles', hlast, halike⟩ := hcompiles.alike hentities
    obtain ⟨p', hpattern⟩ := exists_pattern hnumbered hcompiles'
    refine ⟨_, .pattern p', last, last', rfl, gives_bind.2 ⟨p', _, ?_, gives_pure.2 ⟨rfl, rfl⟩⟩, hlast⟩
    rw [Session.recorded_eq_of_alike (alikeRequests_zip halike _)]
    exact (@gives_record_pattern (key, text) ⟨t, hosts'⟩ _ _ ht).2
      ⟨doc, numbered, es', cs', last', hdoc, hnumbered, hcompiles', hpattern, rfl⟩
  | compileText source r | compileManual key source r =>
    obtain ⟨c, mid, hc, hpure⟩ := gives_bind.1 h
    obtain ⟨rfl, rfl⟩ := gives_pure.1 hpure
    obtain ⟨e, code, hparse, haccepts, hcode, rfl, rfl⟩ := (gives_record_keyed hs).1 (gives_adapt.1 hc)
    obtain ⟨e', code', hparse', haccepts', hcode', halike, hlast⟩ := exists_alike hentities hparse haccepts
    refine ⟨[(r, e)], .callable (r.callable (.code code')), _, _, rfl, gives_bind.2 ⟨_, _, gives_adapt.2
      ((gives_record_keyed ht).2 ⟨e', code', hparse', haccepts', hcode', rfl, ?_⟩), gives_pure.2 ⟨rfl, rfl⟩⟩, hlast⟩
    have hrequests : AlikeRequests [(r, e)] [(r, e')] := .cons ⟨rfl, halike⟩ .nil
    rw [Session.recorded_eq_of_alike hrequests]
    rfl

/-- A call only adds timers to the host objects, whether it fails or not. -/
theorem preserves_run (c : BuildCall) {base : Hosts} : Preserves (BuildState.Compiles base) c.run := by
  have hkeyed (kind : SiteKind) (key : SiteKey) (source : String) (r : Request) :
      Preserves (BuildState.Compiles base) (compileKeyed kind key source r) :=
    preserves_within (preserves_compileSource source r)
  cases c with
  | loadPattern key text => exact preserves_bind (preserves_loadPattern key text) fun _ => preserves_pure _
  | compileText source r => exact preserves_bind (preserves_adapt (hkeyed _ _ source r)) fun _ => preserves_pure _
  | compileManual key source r =>
    exact preserves_bind (preserves_adapt (hkeyed _ _ source r)) fun _ => preserves_pure _

/-- What is left of a call that fails in a recording session: at most the name of its source. -/
theorem session_of_error {state : BuildState} {err : Failure} (hmode : state.session.mode = .record)
    (h : c.run.run.run state = (.error err, after)) :
    after.session = if c.opens then state.session.missed c.file else state.session := by
  have honTop (file : FileId) (source : String) (r : Request) :
      Preserves ((state.session.opening file).OnTop state.session.nextId state.session.stack)
        (compileSource source r) :=
    fun mid hmid => (compileSource_onTop (by exact hmode) source r hmid).1
  have hopened (file : FileId) (hosts : Hosts) : (state.session.opening file).OnTop state.session.nextId
      state.session.stack ⟨state.session.opening file, hosts⟩ := ⟨_, rfl⟩
  cases c with
  | loadPattern key text =>
    replace h := error_of_bind_pure h
    change after.session = if (PatternDocument.parse? text).isSome then
      state.session.missed (FileId.identify .scriptDump (.path key)) else state.session
    unfold BuildM.loadPattern at h
    cases hdoc : PatternDocument.parse? text with
    | none =>
      rw [hdoc] at h
      cases h
      rfl
    | some doc =>
      rw [hdoc] at h
      exact session_of_within_error hmode (doc.preserves_compile fun returns source =>
        preserves_adapt (honTop _ source _)) (fun hkeep => absurd hkeep Bool.false_ne_true) h
  | compileText source r | compileManual key source r =>
    obtain ⟨err', h⟩ := error_of_adapt (error_of_bind_pure h)
    exact session_of_within_error hmode (honTop _ source r)
      (fun _ hosts err after => (compileSource_onTop (by exact hmode) source r (hopened _ hosts)).2 err after) h

end BuildCall

/-! ### Sequences of calls -/

namespace BuildM

/-- Makes calls one after the other, whether they fail or not, and lists what each of them gives. -/
def runCalls : List BuildCall → BuildState → List (BuildCall × Except Failure Loaded) × BuildState
  | [], state => ([], state)
  | c :: calls, state =>
    let (answer, mid) := c.run.run.run state
    let (rest, last) := runCalls calls mid
    ((c, answer) :: rest, last)

theorem runCalls_cons {c : BuildCall} {calls : List BuildCall} {state mid : BuildState}
    {answer : Except Failure Loaded} (h : c.run.run.run state = (answer, mid)) :
    runCalls (c :: calls) state = ((c, answer) :: (runCalls calls mid).1, (runCalls calls mid).2) := by
  rw [runCalls, h]

/-- The calls that succeed among some calls. -/
def succeeding (calls : List BuildCall) (state : BuildState) : List BuildCall :=
  ((runCalls calls state).1.filter (·.2.isOk)).map Prod.fst

/-- No call that fails creates a timer. -/
def FailsQuietly : List BuildCall → BuildState → Prop
  | [], _ => True
  | c :: calls, state =>
    ((c.run.run.run state).1.isOk = false → (c.run.run.run state).2.hosts = state.hosts) ∧
      FailsQuietly calls (c.run.run.run state).2

/-- The first of some calls that opened a source. -/
def opener? (trace : List (BuildCall × Except Failure Loaded)) (file : FileId) :
    Option (BuildCall × Except Failure Loaded) :=
  trace.find? fun x => x.1.opens && decide (x.1.file = file)

theorem opener?_cons_of_neg {x : BuildCall × Except Failure Loaded} {trace : List (BuildCall × Except Failure Loaded)}
    {file : FileId} (h : x.1.opens = true → x.1.file ≠ file) : opener? (x :: trace) file = opener? trace file :=
  List.find?_cons_of_neg (by simpa using h)

/-- If a call succeeds, so did the call that opened its source first. -/
def OpenedWell (calls : List BuildCall) (state : BuildState) : Prop :=
  ∀ y ∈ (runCalls calls state).1, y.2.isOk = true →
    ∀ x, opener? (runCalls calls state).1 y.1.file = some x → x.2.isOk = true

/-- A recording session that knows the names of another one with the same recordings. -/
structure Knows (s t : Session) : Prop where
  mode : s.mode = .record ∧ t.mode = .record
  stack : s.stack = [] ∧ t.stack = []
  batches : s.batches = t.batches
  opened : ∀ file ∈ t.opened, file ∈ s.opened

variable {s t : Session}

/-- A source is recorded in the same way by two sessions that both know its name or both do not. -/
theorem Knows.recorded (h : Knows s t) {file : FileId} (hfile : file ∈ t.opened ∨ file ∉ s.opened)
    (xs : List (Request × Expr)) : Knows (s.recorded file xs) (t.recorded file xs) := by
  have hiff : file ∈ s.opened ↔ file ∈ t.opened :=
    ⟨fun hs => hfile.resolve_right (not_not_intro hs), h.opened file⟩
  refine ⟨h.mode, h.stack, ?_, fun other hother => ?_⟩
  · simp only [Session.recorded, h.batches, hiff]
  · simp only [Session.recorded, hiff] at hother ⊢
    split at hother
    · rw [if_pos ‹_›]
      exact h.opened other hother
    · rw [if_neg ‹_›, List.mem_cons]
      exact (List.mem_cons.1 hother).imp_right (h.opened other)

theorem Knows.missed (h : Knows s t) (file : FileId) : Knows (s.missed file) t := by
  refine ⟨h.mode, h.stack, h.batches, fun other hother => ?_⟩
  unfold Session.missed
  split
  · exact h.opened other hother
  · exact List.mem_cons_of_mem _ (h.opened other hother)

/-- Every call that succeeds is about a source that another session knows as well, or about a new one, and then the
call that opens it first succeeds. -/
def OpensKnown (calls : List BuildCall) (state : BuildState) (t : Session) : Prop :=
  ∀ y ∈ (runCalls calls state).1, y.2.isOk = true → y.1.file ∈ t.opened ∨
    y.1.file ∉ state.session.opened ∧ ∀ x, opener? (runCalls calls state).1 y.1.file = some x → x.2.isOk = true

variable {c : BuildCall} {calls : List BuildCall} {hosts : Hosts} {mid : BuildState}

/-- A call that fails may leave its source behind as an opened one, which no other call that succeeds is about. -/
theorem OpensKnown.failed {err : Failure} (h : OpensKnown (c :: calls) ⟨s, hosts⟩ t) (hknows : Knows s t)
    (hrun : c.run.run.run ⟨s, hosts⟩ = (.error err, mid)) : Knows mid.session t ∧ OpensKnown calls mid t := by
  have hsession := @BuildCall.session_of_error c _ ⟨s, hosts⟩ err hknows.mode.1 hrun
  rw [OpensKnown, runCalls_cons hrun] at h
  rw [OpensKnown, hsession]
  refine ⟨?_, fun y hy hok => (h y (List.mem_cons_of_mem _ hy) hok).imp_right fun ⟨hnew, hfirst⟩ => ?_⟩
  · split
    · exact hknows.missed _
    · exact hknows
  -- The call that failed did not open the source, as it would have been the first to open it.
  have hother : c.opens = true → c.file ≠ y.1.file := fun hopens heq =>
    Bool.false_ne_true (hfirst _ (List.find?_cons_of_pos (by rw [hopens, decide_eq_true heq]; rfl)))
  refine ⟨?_, fun x hx => hfirst x ((opener?_cons_of_neg hother).trans hx)⟩
  split
  · rename_i hopens
    unfold Session.missed
    split
    · exact hnew
    · exact fun hmem => (List.mem_cons.1 hmem).elim (hother hopens).symm hnew
  · exact hnew

/-- A call that succeeds records its source in both sessions or in neither. -/
theorem OpensKnown.recorded {v : Loaded} {xs : List (Request × Expr)} {last : Hosts}
    (h : OpensKnown (c :: calls) ⟨s, hosts⟩ t) (hknows : Knows s t)
    (hrun : c.run.run.run ⟨s, hosts⟩ = (.ok v, ⟨s.recorded c.file xs, last⟩)) :
    Knows (s.recorded c.file xs) (t.recorded c.file xs) ∧
      OpensKnown calls ⟨s.recorded c.file xs, last⟩ (t.recorded c.file xs) := by
  rw [OpensKnown, runCalls_cons hrun] at h
  obtain ⟨hfile, hopened⟩ := List.forall_mem_cons.1 h
  refine ⟨hknows.recorded ((hfile rfl).imp_right And.left) xs, fun y hy hok => ?_⟩
  by_cases hsame : y.1.file = c.file
  · rw [hsame]
    exact .inl (Session.mem_opened_recorded.2 (.inl rfl))
  · refine (hopened y hy hok).imp (fun hmem => Session.mem_opened_recorded.2 (.inr hmem)) fun ⟨hnew, hfirst⟩ => ?_
    exact ⟨fun hmem => (Session.mem_opened_recorded.1 hmem).elim hsame hnew,
      fun x hx => hfirst x ((opener?_cons_of_neg fun _ => Ne.symm hsame).trans hx)⟩

/-- Leaving out the calls that fail, between sessions one of which knows more names, over host objects with the same
entities. A source that only the one session knows is not recorded any more. -/
theorem runCalls_knows {calls : List BuildCall} {hosts hosts' : Hosts} (hknows : Knows s t)
    (hentities : hosts'.entities = hosts.entities) (hopened : OpensKnown calls ⟨s, hosts⟩ t) :
    (hosts' = hosts → FailsQuietly calls ⟨s, hosts⟩ →
      (runCalls (succeeding calls ⟨s, hosts⟩) ⟨t, hosts'⟩).1 = (runCalls calls ⟨s, hosts⟩).1.filter (·.2.isOk)) ∧
    (∀ y ∈ (runCalls (succeeding calls ⟨s, hosts⟩) ⟨t, hosts'⟩).1, y.2.isOk = true) ∧
      Knows (runCalls calls ⟨s, hosts⟩).2.session
        (runCalls (succeeding calls ⟨s, hosts⟩) ⟨t, hosts'⟩).2.session := by
  induction calls generalizing s t hosts hosts' with
  | nil => exact ⟨fun _ _ => rfl, List.forall_mem_nil _, hknows⟩
  | cons c calls ih =>
    unfold succeeding
    rcases hrun : c.run.run.run ⟨s, hosts⟩ with ⟨err | v, mid⟩
    · obtain ⟨hknows', hopened'⟩ := hopened.failed hknows hrun
      rw [runCalls_cons hrun]
      -- A call that fails may still create timers, so only the entities are the same in both runs.
      have hgrows := c.preserves_run ⟨s, hosts⟩ ⟨by rw [hknows.mode.1]; decide, .refl hosts⟩
      rw [hrun] at hgrows
      obtain ⟨session, later⟩ := mid
      obtain ⟨htrace, hothers⟩ := ih hknows' (hentities.trans hgrows.grows.entities.symm) hopened'
      refine ⟨fun hsame hquiet => ?_, hothers⟩
      rw [FailsQuietly, hrun] at hquiet
      exact htrace (hsame.trans (hquiet.1 rfl).symm) hquiet.2
    · obtain ⟨xs, v', last, last', rfl, hgives, hlast⟩ :=
        BuildCall.gives_run_alike hknows.mode.1 hknows.mode.2 hentities hrun
      obtain ⟨hknows', hopened'⟩ := hopened.recorded hknows hrun
      obtain ⟨htrace, hok, hrest⟩ := ih hknows' hlast hopened'
      rw [runCalls_cons hrun, List.filter_cons_of_pos rfl, List.map_cons, runCalls_cons hgives]
      refine ⟨fun hsame hquiet => ?_, List.forall_mem_cons.2 ⟨rfl, hok⟩, hrest⟩
      subst hsame
      rw [FailsQuietly, hrun] at hquiet
      -- Over the same host objects the call gives the same.
      obtain ⟨ys, later, hafter, hgives'⟩ := BuildCall.gives_run hknows.mode.1 hknows.mode.2 hrun
      obtain ⟨hv, hstate⟩ := Prod.mk.inj (hgives.symm.trans hgives')
      obtain rfl := Except.ok.inj hv
      have hlater' : last = later := congrArg BuildState.hosts hafter
      have hlast' : last' = later := congrArg BuildState.hosts hstate
      exact congrArg (List.cons (c, .ok v')) (htrace (hlast'.trans hlater'.symm) hquiet.2)

/-- Both sessions export the same. -/
theorem Knows.export_eq (h : Knows s t) :
    s.export = .ok (some (Artifacts.ofBatches s.batches), { s with batches := [] }) ∧
      t.export = .ok (some (Artifacts.ofBatches s.batches), { t with batches := [] }) := by
  refine ⟨Session.export_recording h.mode.1 h.stack.1, ?_⟩
  rw [h.batches]
  exact Session.export_recording h.mode.2 h.stack.2

/-- In a recording session the calls that fail can be left out, unless a source is recorded of which the first
call failed: the other calls succeed without them, and the same artifacts are exported. If no call that fails makes
a timer, the other calls also give the same; else the callables may hold their timers at other places. -/
theorem runCalls_succeeding {calls : List BuildCall} {hosts : Hosts}
    (hopened : OpenedWell calls ⟨Session.recording, hosts⟩) :
    let start : BuildState := ⟨Session.recording, hosts⟩
    (FailsQuietly calls start →
      (runCalls (succeeding calls start) start).1 = (runCalls calls start).1.filter (·.2.isOk)) ∧
    (∀ y ∈ (runCalls (succeeding calls start) start).1, y.2.isOk = true) ∧
      ∃ artifacts session session',
        (runCalls calls start).2.session.export = .ok (some artifacts, session) ∧
        (runCalls (succeeding calls start) start).2.session.export = .ok (some artifacts, session') := by
  intro start
  have hknows : Knows Session.recording Session.recording := ⟨⟨rfl, rfl⟩, ⟨rfl, rfl⟩, rfl, fun _ h => h⟩
  have hentities : hosts.entities = hosts.entities := rfl
  obtain ⟨htrace, hok, hlast⟩ :=
    runCalls_knows hknows hentities fun y hy hok => .inr ⟨List.not_mem_nil, hopened y hy hok⟩
  obtain ⟨hexport, hexport'⟩ := hlast.export_eq
  exact ⟨htrace rfl, hok, _, _, _, hexport, hexport'⟩

/-! ### Given calls -/

theorem parseIn_lone (hosts : Hosts) : ∃ err, parseIn hosts "(" = (.error err, hosts) := by
  have hfails : (parseIn hosts "(").1.isOk = false ∧ (parseIn hosts "(").2 = hosts := ⟨by cbv, by cbv⟩
  generalize parseIn hosts "(" = r at hfails
  obtain ⟨err | e, last⟩ := r
  · exact ⟨err, by rw [← hfails.2]⟩
  · cases hfails.1

/-- A text that cannot be read is given up. -/
theorem run_unreadable {kind : SiteKind} {key : SiteKey} {source : String} {r : Request} {state : BuildState}
    {err : ParseError} (hmode : state.session.mode = .record)
    (hparse : parseIn state.hosts source = (.error err, state.hosts)) :
    (compileKeyed kind key source r).run.run state =
      (.error (.parse err), ⟨state.session.missed (FileId.identify kind key), state.hosts⟩) := by
  have hact : (compileSource source r).run.run ⟨state.session.opening (FileId.identify kind key), state.hosts⟩ =
      (.error (.parse err), ⟨state.session.opening (FileId.identify kind key), state.hosts⟩) := by
    have hserve : ¬ (state.session.opening (FileId.identify kind key)).mode = .serve := by
      change ¬ state.session.mode = .serve
      rw [hmode]
      decide
    rw [run_compileSource, if_neg hserve, run_bind, run_parse, hparse]
    rfl
  rw [compileKeyed, run_within, Session.openKeyed_recording hmode]
  dsimp only
  rw [hact]
  dsimp only
  unfold closed
  rw [Session.close_top rfl]
  simp [Session.opening, Session.missed, Session.remainder?, Recording.export?]

/-- A document that cannot be read, a text that cannot be read, and a document that is loaded. -/
theorem runCalls_succeeding_pausing :
    let calls : List BuildCall :=
      [.loadPattern "a" "", .compileManual "k" "(" ⟨[], .int, []⟩, .loadPattern "a" pausing]
    let start : BuildState := ⟨Session.recording, Hosts.empty⟩
    FailsQuietly calls start ∧ OpenedWell calls start ∧ succeeding calls start = [.loadPattern "a" pausing] ∧
      ∃ artifacts session session',
        (runCalls calls start).2.session.export = .ok (some artifacts, session) ∧
        (runCalls [.loadPattern "a" pausing] start).2.session.export = .ok (some artifacts, session') := by
  intro calls start
  have hdocument : PatternDocument.parse? "" = none := by cbv
  obtain ⟨err, hlone⟩ := parseIn_lone Hosts.empty
  have hfirst : (BuildCall.loadPattern "a" "").run.run.run start =
      (.error (Failure.within "Parsing pattern document" ⟨[.document]⟩), start) := by
    have hload : BuildM.loadPattern "a" "" = throw (Failure.within "Parsing pattern document" ⟨[.document]⟩) := by
      unfold BuildM.loadPattern
      rw [hdocument]
    rw [BuildCall.run, hload]
    rfl
  let mid : BuildState :=
    ⟨Session.recording.missed (FileId.identify .manualReflection (.text "k")), Hosts.empty⟩
  have hsecond : (BuildCall.compileManual "k" "(" ⟨[], .int, []⟩).run.run.run start =
      (.error (Failure.ofCompile (.parse err)), mid) := by
    have hrun := @run_unreadable .manualReflection (.text "k") "(" ⟨[], .int, []⟩ start err rfl hlone
    rw [BuildCall.run, compileManual, run_bind, run_adapt, hrun]
    rfl
  obtain ⟨p, hp⟩ := @record_pausing "a" mid rfl
  have hthird : (BuildCall.loadPattern "a" pausing).run.run.run mid = _ :=
    gives_bind.2 ⟨_, _, hp, gives_pure.2 ⟨rfl, rfl⟩⟩
  obtain ⟨first, second, htrace⟩ : ∃ first second, (runCalls calls start).1 = [(.loadPattern "a" "", .error first),
      (.compileManual "k" "(" ⟨[], .int, []⟩, .error second), (.loadPattern "a" pausing, .ok (.pattern p))] := by
    rw [runCalls_cons hfirst, runCalls_cons hsecond, runCalls_cons hthird]
    exact ⟨_, _, rfl⟩
  have hquiet : FailsQuietly calls start := by
    simp only [calls, FailsQuietly, hfirst, hsecond, hthird]
    exact ⟨fun _ => trivial, fun _ => rfl, fun h => absurd h.symm Bool.false_ne_true, trivial⟩
  have hopened : OpenedWell calls start := by
    unfold OpenedWell
    rw [htrace]
    intro y hy hok x hx
    have hclosed : (BuildCall.loadPattern "a" "").opens = false := by rw [BuildCall.opens, hdocument]; rfl
    have hother : (BuildCall.compileManual "k" "(" ⟨[], .int, []⟩).file ≠
        (BuildCall.loadPattern "a" pausing).file := by
      decide +kernel
    obtain rfl : y = (BuildCall.loadPattern "a" pausing, .ok (.pattern p)) := by
      simp only [List.mem_cons, List.not_mem_nil, or_false] at hy
      rcases hy with rfl | rfl | rfl
      · cases hok
      · cases hok
      · rfl
    rw [opener?_cons_of_neg fun hopens => absurd (hclosed.symm.trans hopens) Bool.false_ne_true,
      opener?_cons_of_neg fun _ => hother] at hx
    obtain rfl := List.mem_singleton.1 (List.mem_of_find?_eq_some hx)
    rfl
  have hkept : succeeding calls start = [.loadPattern "a" pausing] := by
    unfold succeeding
    rw [htrace]
    rfl
  obtain ⟨-, -, hexport⟩ := runCalls_succeeding hopened
  rw [hkept] at hexport
  exact ⟨hquiet, hopened, hkept, hexport⟩

/-- A document whose only expression cannot be read. -/
def broken : String := "[\x7b\x7d,[[\x7b\x7d,[[\"wait\",\"(\"]]]]]"

theorem parse?_broken :
    PatternDocument.parse? broken = some ⟨{}, [⟨{}, [.leaf (.wait "(")]⟩]⟩ := by
  have hjson : Json.parse? broken = some (.array [.object [], .array [.array [.object [],
      .array [.array [.text "wait", .text "("]]]]]) := by
    cbv
  unfold PatternDocument.parse? Json.readDocument?
  rw [hjson]
  rfl

/-- Loading a document whose expression cannot be read fails. -/
theorem record_broken (key : String) {state : BuildState} (hmode : state.session.mode = .record) :
    ∃ err after, (BuildCall.loadPattern key broken).run.run.run state = (.error err, after) ∧
      after.session = state.session.missed (patternFile key) := by
  rcases hrun : (BuildCall.loadPattern key broken).run.run.run state with ⟨err | v, after⟩
  · refine ⟨err, after, rfl, ?_⟩
    have hopens : (BuildCall.loadPattern key broken).opens = true := by rw [BuildCall.opens, parse?_broken]; rfl
    rw [BuildCall.session_of_error hmode hrun, if_pos hopens]
    rfl
  · obtain ⟨p, mid, hp, -⟩ := gives_bind.1 hrun
    obtain ⟨doc, numbered, es, cs, last, hdoc, -, hcompiles, -⟩ :=
      (@gives_record_pattern (key, broken) _ _ _ hmode).1 hp
    cases parse?_broken.symm.trans hdoc
    obtain ⟨err, hlone⟩ := parseIn_lone state.hosts
    cases hcompiles with
    | cons hparse =>
      rw [hlone] at hparse
      cases hparse

/-- A document that cannot be read is mended and loaded again: it is not exported, although it is if only the
mended document is loaded. -/
theorem mended_not_exported :
    let calls : List BuildCall := [.loadPattern "a" broken, .loadPattern "a" pausing]
    let start : BuildState := ⟨Session.recording, Hosts.empty⟩
    succeeding calls start = [.loadPattern "a" pausing] ∧ ∃ artifacts artifacts' session session',
      (runCalls calls start).2.session.export = .ok (some artifacts, session) ∧
      (runCalls [.loadPattern "a" pausing] start).2.session.export = .ok (some artifacts', session') ∧
      artifacts.chunks = [] ∧ artifacts'.chunks.length = 1 := by
  intro calls start
  obtain ⟨err, mid, hfirst, hmid⟩ := @record_broken "a" start rfl
  have hmode : mid.session.mode = .record := by
    rw [hmid]
    rfl
  have hpausing (state : BuildState) (hmode : state.session.mode = .record) : ∃ p,
      runCalls [.loadPattern "a" pausing] state = ([(.loadPattern "a" pausing, .ok p)],
        ⟨state.session.recorded (patternFile "a") [passed], state.hosts⟩) := by
    obtain ⟨p, hp⟩ := @record_pausing "a" state hmode
    have hrun : (BuildCall.loadPattern "a" pausing).run.run.run state = _ :=
      gives_bind.2 ⟨_, _, hp, gives_pure.2 ⟨rfl, rfl⟩⟩
    exact ⟨_, runCalls_cons hrun⟩
  obtain ⟨p, hsecond⟩ := hpausing mid hmode
  obtain ⟨p', halone⟩ := hpausing start rfl
  have hboth : runCalls calls start = ([(.loadPattern "a" broken, .error err), (.loadPattern "a" pausing, .ok p)],
      ⟨mid.session.recorded (patternFile "a") [passed], mid.hosts⟩) := by
    rw [runCalls_cons hfirst, hsecond]
  have hknown : patternFile "a" ∈ mid.session.opened := by
    rw [hmid]
    exact List.mem_singleton_self _
  have hexport : ∃ session, (mid.session.recorded (patternFile "a") [passed]).export =
      .ok (some (Artifacts.ofBatches []), session) := by
    have hbatches : (mid.session.recorded (patternFile "a") [passed]).batches = [] := by
      rw [hmid] at hknown ⊢
      simp only [Session.recorded, if_pos hknown]
      rfl
    rw [Session.export_recording (by exact hmode) (by rw [hmid]; rfl), hbatches]
    exact ⟨_, rfl⟩
  have hexport' : ∃ session, (Session.recording.recorded (patternFile "a") [passed]).export =
      .ok (some (Artifacts.ofBatches [(RecordedFile.ofExprs (patternFile "a") [passed]).batch]), session) := by
    rw [Session.recorded_of_notMem List.not_mem_nil]
    exact ⟨_, Session.export_recording rfl rfl⟩
  obtain ⟨session, hexport⟩ := hexport
  obtain ⟨session', hexport'⟩ := hexport'
  refine ⟨?_, Artifacts.ofBatches [], Artifacts.ofBatches [(RecordedFile.ofExprs (patternFile "a") [passed]).batch],
    session, session', ?_, ?_, ?_, ?_⟩
  · unfold succeeding
    rw [hboth]
    rfl
  · rw [hboth]
    exact hexport
  · rw [halone]
    exact hexport'
  · simp [Artifacts.ofBatches, Artifacts.pieces]
  · unfold Artifacts.ofBatches
    rw [List.length_map, Artifacts.pieces_of_length_le (by exact List.cons_ne_nil _ _) (by decide)]
    rfl

end BuildM

end Barrage
