import Mathlib
import Barrage.Proofs.Bake.RecordedSources

/-!
# Replay of texts

A text that is compiled by itself is a source under the text. In a recording session the first compilation of
a text leaves its unit, and what is compiled under the same text later is suppressed. So a serving session
gives every request for a text the unit of the first one, and the requests succeed exactly if all that are made
for one text ask for the same signature.

## Main definitions

* `BuildM.textFile` — the source of a text
* `BuildM.Keeps` — a source that was recorded for a text

## Main results

* `BuildM.record_requests` — the sources that a recording session leaves
* `BuildM.serve_requests` — when a serving session has a unit for every request
* `BuildM.replay_texts` — requests are served as they were recorded if those for one text agree
* `BuildM.replay_texts_fails` — requests that were recorded and are not served
-/

namespace Barrage

open Chunk Barrage.Expr

namespace BuildM

/-- The source of a text. -/
abbrev textFile (text : String) : FileId := FileId.identify .textConversion (.text text)

/-! ### Recording -/

/-- The source that the first compilation of a text leaves. -/
structure Keeps (request : String × Request) (f : RecordedFile) : Prop where
  spelled : f.Spelled
  unit : ∃ e, f = RecordedFile.ofExprs (textFile request.1) [(request.2, e)]

theorem Keeps.file {request : String × Request} {f : RecordedFile} (h : Keeps request f) :
    f.file = textFile request.1 := by
  obtain ⟨e, rfl⟩ := h.unit
  rfl

/-- Recording requests one after the other: one source is left for every text that is new. -/
theorem record_requests {requests : List (String × Request)} {state after : BuildState} {cs : List Callable}
    (hnames : ∀ x ∈ requests, ∀ p ∈ x.2.fullParams, Identifier p.name) (hmode : state.session.mode = .record)
    (hstack : state.session.stack = [])
    (h : Gives (requests.mapM fun x => compileText x.1 x.2) state cs after) :
    cs.map (·.signature) = requests.map (fun x => ⟨x.2.params.map (·.type), x.2.returns⟩) ∧
      after.session.mode = .record ∧ after.session.stack = [] ∧ ∃ fs : List RecordedFile,
        after.session.batches = state.session.batches ++ fs.map RecordedFile.batch ∧
        (fs.map (·.file)).Nodup ∧ (∀ f ∈ fs, f.file ∉ state.session.opened ∧ ∃ x ∈ requests, Keeps x f) ∧
        ∀ x ∈ requests, textFile x.1 ∈ state.session.opened ∨ ∃ f ∈ fs, f.file = textFile x.1 := by
  induction requests generalizing state cs with
  | nil =>
    obtain ⟨rfl, rfl⟩ := gives_mapM_nil.1 h
    exact ⟨rfl, hmode, hstack, [], (List.append_nil _).symm, List.nodup_nil, List.forall_mem_nil _,
      List.forall_mem_nil _⟩
  | cons x requests ih =>
    obtain ⟨c, mid, cs', hc, hcs, rfl⟩ := gives_mapM_cons.1 h
    obtain ⟨hfirst, hrest⟩ := List.forall_mem_cons.1 hnames
    obtain ⟨e, code, -, haccepts, -, rfl, rfl⟩ := (gives_record_keyed hmode).1 hc
    obtain ⟨hsignatures, hmode', hstack', fs, hbatches, hnodup, hkept, hcovered⟩ :=
      ih hrest (by exact hmode) (by exact hstack) hcs
    refine ⟨by rw [List.map_cons, List.map_cons, hsignatures]; rfl, hmode', hstack', ?_⟩
    unfold Session.recorded at hbatches hkept hcovered
    by_cases hknown : textFile x.1 ∈ state.session.opened
    · simp only [if_pos hknown, List.append_nil] at hbatches hkept hcovered
      refine ⟨fs, hbatches, hnodup, fun f hf => ?_, List.forall_mem_cons.2 ⟨.inl hknown, hcovered⟩⟩
      obtain ⟨hunopened, y, hy, hkeeps⟩ := hkept f hf
      exact ⟨hunopened, y, List.mem_cons_of_mem _ hy, hkeeps⟩
    · simp only [if_neg hknown] at hbatches hkept hcovered
      have hkeeps : Keeps x (RecordedFile.ofExprs (textFile x.1) [(x.2, e)]) :=
        ⟨RecordedFile.spelled_ofExprs _ _ (List.forall_mem_singleton.2 ⟨haccepts, hfirst⟩), e, rfl⟩
      refine ⟨RecordedFile.ofExprs (textFile x.1) [(x.2, e)] :: fs, ?_, ?_, ?_,
        List.forall_mem_cons.2 ⟨.inr ⟨_, List.mem_cons_self, rfl⟩, fun y hy => ?_⟩⟩
      · rw [hbatches, List.append_assoc]
        rfl
      · rw [List.map_cons, List.nodup_cons]
        refine ⟨fun hmem => ?_, hnodup⟩
        obtain ⟨g, hg, hsame⟩ := List.mem_map.1 hmem
        exact (hkept g hg).1 (hsame ▸ List.mem_cons_self)
      · refine List.forall_mem_cons.2 ⟨⟨hknown, x, List.mem_cons_self, hkeeps⟩, fun g hg => ?_⟩
        obtain ⟨hunopened, y, hy, hkeeps'⟩ := hkept g hg
        exact ⟨fun hmem => hunopened (List.mem_cons_of_mem _ hmem), y, List.mem_cons_of_mem _ hy, hkeeps'⟩
      · rcases hcovered y hy with hmem | ⟨g, hg, hsame⟩
        · rcases List.mem_cons.1 hmem with heq | hmem
          · exact .inr ⟨_, List.mem_cons_self, heq.symm⟩
          · exact .inl hmem
        · exact .inr ⟨g, List.mem_cons_of_mem _ hg, hsame⟩

/-! ### Serving -/

/-- A request is served if its text has a unit with the signature that is asked for. -/
theorem serve_request {request : String × Request} {state : BuildState} {unit : BakedUnit}
    (hmode : state.session.mode = .serve)
    (hunits : state.session.store.unitsFor (textFile request.1) = .ok [unit])
    (hsignature : unit.signature = Signature.of request.2.fullParams request.2.returns) :
    Gives (compileText request.1 request.2) state (request.2.callable (.unit unit))
      ⟨{ state.session with nextId := state.session.nextId + 1 }, state.hosts⟩ := by
  obtain ⟨id, opened, mid, hopen, hserve, -, hclose, hhosts⟩ :=
    serve_source gives_compileRequest hmode hunits (.cons hsignature .nil)
  obtain ⟨c, mid', cs, hc, hcs, heq⟩ := gives_mapM_cons.1 hserve
  obtain ⟨rfl, rfl⟩ := gives_mapM_nil.1 hcs
  cases heq
  exact gives_within.2 ⟨_, _, _, _, hopen, hc, hclose, by rw [hhosts]⟩

/-- A request is only served by a unit with the signature that is asked for. -/
theorem signature_of_serve_request {request : String × Request} {state after : BuildState} {unit : BakedUnit}
    {c : Callable} (hmode : state.session.mode = .serve)
    (hunits : state.session.store.unitsFor (textFile request.1) = .ok [unit])
    (h : Gives (compileText request.1 request.2) state c after) :
    unit.signature = Signature.of request.2.fullParams request.2.returns := by
  obtain ⟨id, opened, mid, closed, hopen, hserve, -, -⟩ := gives_within.1 h
  rw [Session.openKeyed_serving hmode hunits] at hopen
  cases hopen
  have hresult := (gives_iff.1 hserve).1
  rw [run_compileSource, if_pos (by exact hmode)] at hresult
  dsimp only at hresult
  exact Session.signature_of_serve rfl rfl hresult

/-- Requests are served if each has the signature of the unit of its text. -/
theorem serve_requests {requests : List (String × Request)} {state : BuildState}
    (hmode : state.session.mode = .serve)
    (hunits : ∀ x ∈ requests, ∃ unit, state.session.store.unitsFor (textFile x.1) = .ok [unit] ∧
      unit.signature = Signature.of x.2.fullParams x.2.returns) :
    ∃ served last, Gives (requests.mapM fun x => compileText x.1 x.2) state served last := by
  induction requests generalizing state with
  | nil => exact ⟨[], state, gives_mapM_nil.2 ⟨rfl, rfl⟩⟩
  | cons x requests ih =>
    obtain ⟨⟨unit, hunit, hsignature⟩, hrest⟩ := List.forall_mem_cons.1 hunits
    obtain ⟨served, last, hserved⟩ :=
      @ih ⟨{ state.session with nextId := state.session.nextId + 1 }, state.hosts⟩ hmode hrest
    exact ⟨_, _, gives_mapM_cons.2 ⟨_, _, _, serve_request hmode hunit hsignature, hserved, rfl⟩⟩

/-- Requests are only served if each has the signature of the unit of its text. -/
theorem signatures_of_serve_requests {requests : List (String × Request)} {state last : BuildState}
    {served : List Callable} (hmode : state.session.mode = .serve)
    (hunits : ∀ x ∈ requests, ∃ unit, state.session.store.unitsFor (textFile x.1) = .ok [unit])
    (h : Gives (requests.mapM fun x => compileText x.1 x.2) state served last) :
    served.map (·.signature) = requests.map (fun x => ⟨x.2.params.map (·.type), x.2.returns⟩) ∧
      ∀ x ∈ requests, ∀ unit, state.session.store.unitsFor (textFile x.1) = .ok [unit] →
        unit.signature = Signature.of x.2.fullParams x.2.returns := by
  induction requests generalizing state served with
  | nil =>
    obtain ⟨rfl, rfl⟩ := gives_mapM_nil.1 h
    exact ⟨rfl, List.forall_mem_nil _⟩
  | cons x requests ih =>
    obtain ⟨⟨unit, hunit⟩, hrest⟩ := List.forall_mem_cons.1 hunits
    obtain ⟨c, mid, served', hc, hserved, rfl⟩ := gives_mapM_cons.1 h
    have hsignature := signature_of_serve_request hmode hunit hc
    have hsame := hc.symm.trans (serve_request hmode hunit hsignature)
    cases hsame
    obtain ⟨hsignatures, hall⟩ :=
      @ih ⟨{ state.session with nextId := state.session.nextId + 1 }, state.hosts⟩ _ hmode hrest hserved
    refine ⟨by rw [List.map_cons, List.map_cons, hsignatures]; rfl, List.forall_mem_cons.2 ⟨?_, hall⟩⟩
    intro unit' hunit'
    have hsame := hunit.symm.trans hunit'
    cases hsame
    exact hsignature

/-! ### Texts with known trees -/

/-- A recording session after requests for texts whose trees are known. -/
def recordedTexts (s : Session) (xs : List (String × Request × Expr)) : Session :=
  xs.foldl (fun s x => s.recorded (textFile x.1) [x.2]) s

variable {xs : List (String × Request × Expr)}

theorem open_recordedTexts (s : Session) (xs : List (String × Request × Expr)) :
    (recordedTexts s xs).mode = s.mode ∧ (recordedTexts s xs).stack = s.stack := by
  induction xs generalizing s with
  | nil => exact ⟨rfl, rfl⟩
  | cons x xs ih => exact ih (s.recorded (textFile x.1) [x.2])

/-- Requests for texts whose trees are accepted are recorded. -/
theorem gives_record_requests {session : Session} {hosts : Hosts} (hmode : session.mode = .record)
    (h : ∀ x ∈ xs, parseIn hosts x.1 = (.ok x.2.2, hosts) ∧ x.2.2.check x.2.1.fullParams x.2.1.returns = .ok ()) :
    ∃ cs, Gives ((xs.map fun x => (x.1, x.2.1)).mapM fun x => compileText x.1 x.2) ⟨session, hosts⟩ cs
      ⟨recordedTexts session xs, hosts⟩ := by
  induction xs generalizing session with
  | nil => exact ⟨[], gives_mapM_nil.2 ⟨rfl, rfl⟩⟩
  | cons x xs ih =>
    obtain ⟨⟨hparse, hcheck⟩, hrest⟩ := List.forall_mem_cons.1 h
    have hok : (parseIn hosts x.1).1 = .ok x.2.2 := by rw [hparse]
    obtain ⟨code, hcode, -⟩ := Request.exists_compileDirect hcheck
    have hgives := (@gives_record_keyed ⟨session, hosts⟩ _ .textConversion (.text x.1) x.1 x.2.1 _ hmode).2
      ⟨x.2.2, code, hok, ⟨hcheck, sourceNamed_of_parse hok⟩, hcode, rfl, rfl⟩
    rw [hparse] at hgives
    obtain ⟨cs, hcs⟩ := @ih (session.recorded (textFile x.1) [x.2]) hmode hrest
    exact ⟨_, gives_mapM_cons.2 ⟨_, _, cs, hgives, hcs, rfl⟩⟩

theorem parseIn_one : parseIn Hosts.empty "1" = (.ok (.const (.int 1)), Hosts.empty) := by
  cbv

theorem parseIn_two : parseIn Hosts.empty "2" = (.ok (.const (.int 2)), Hosts.empty) := by
  cbv

/-! ### Recording and serving -/

/-- After recording, every text has the unit of a request for it. -/
theorem exists_unit {requests : List (String × Request)} {fs : List RecordedFile}
    (hkept : ∀ f ∈ fs, ∃ x ∈ requests, Keeps x f) (hnodup : (fs.map (·.file)).Nodup)
    (hcovered : ∀ x ∈ requests, ∃ f ∈ fs, f.file = textFile x.1) {store : Store}
    (hstore : Store.ofArtifacts (RecordedFile.artifacts fs) = .ok store)
    {x : String × Request} (hx : x ∈ requests) :
    ∃ unit, store.unitsFor (textFile x.1) = .ok [unit] ∧ ∃ y ∈ requests, textFile y.1 = textFile x.1 ∧
      unit.signature = Signature.of y.2.fullParams y.2.returns := by
  obtain ⟨f, hf, hfile⟩ := hcovered x hx
  obtain ⟨y, hy, hkeeps⟩ := hkept f hf
  have hspelled : ∀ f ∈ fs, f.Spelled := by
    intro g hg
    obtain ⟨z, -, hkeeps'⟩ := hkept g hg
    exact hkeeps'.spelled
  obtain ⟨units, hunits, hloaded⟩ :=
    RecordedFile.unitsFor_load (RecordedFile.valid_of_load (fun f hf => (hspelled f hf).worded) hstore) hnodup hstore hf
  obtain ⟨e, rfl⟩ := hkeeps.unit
  obtain ⟨hlength, hplaces⟩ := RecordedFile.loaded_ofExprs hloaded
  obtain ⟨unit, rfl⟩ := List.length_eq_one_iff.1 hlength
  exact ⟨unit, hfile ▸ hunits, y, hy, hfile, (hplaces 0 _ unit rfl rfl).2⟩

/-- Requests that were recorded in one session are served exactly if those for one text ask for the same
signature, and with the signatures of the recorded callables. -/
theorem replay_texts {requests : List (String × Request)} {recorded : List Callable} {hosts : Hosts}
    {after : BuildState} (hnames : ∀ x ∈ requests, ∀ p ∈ x.2.fullParams, Identifier p.name)
    (hrecord : Gives (requests.mapM fun x => compileText x.1 x.2) ⟨Session.recording, hosts⟩ recorded after) :
    ∃ artifacts, after.session.export = .ok (some artifacts, { after.session with batches := [] }) ∧
      ∀ store, Store.ofArtifacts artifacts = .ok store → ∀ hosts',
        ((∃ served last, Gives (requests.mapM fun x => compileText x.1 x.2)
          ⟨Session.serving store, hosts'⟩ served last) ↔
          ∀ x ∈ requests, ∀ y ∈ requests, textFile x.1 = textFile y.1 →
            Signature.of x.2.fullParams x.2.returns = Signature.of y.2.fullParams y.2.returns) ∧
        ∀ served last, Gives (requests.mapM fun x => compileText x.1 x.2)
          ⟨Session.serving store, hosts'⟩ served last →
          served.map (·.signature) = recorded.map (·.signature) := by
  obtain ⟨hsignatures, hmode, hstack, fs, hbatches, hnodup, hkept, hcovered⟩ :=
    record_requests hnames rfl rfl hrecord
  refine ⟨RecordedFile.artifacts fs, ?_, fun store hstore hosts' => ?_⟩
  · rw [Session.export_recording hmode hstack, hbatches]
    rfl
  have hunit : ∀ x ∈ requests, ∃ unit, store.unitsFor (textFile x.1) = .ok [unit] ∧
      ∃ y ∈ requests, textFile y.1 = textFile x.1 ∧
        unit.signature = Signature.of y.2.fullParams y.2.returns := fun x hx =>
    exists_unit (fun f hf => (hkept f hf).2) hnodup
      (fun y hy => (hcovered y hy).resolve_left List.not_mem_nil) hstore hx
  have hunits : ∀ x ∈ requests, ∃ unit, store.unitsFor (textFile x.1) = .ok [unit] := fun x hx =>
    (hunit x hx).imp fun _ h => h.1
  refine ⟨⟨?_, fun hagree => ?_⟩, fun served last hserved => ?_⟩
  · rintro ⟨served, last, hserved⟩ x hx y hy hsame
    obtain ⟨unit, hfound⟩ := hunits x hx
    have hall := (signatures_of_serve_requests (by exact rfl) hunits hserved).2
    exact (hall x hx unit hfound).symm.trans (hall y hy unit (hsame ▸ hfound))
  · refine serve_requests (by exact rfl) fun x hx => ?_
    obtain ⟨unit, hfound, y, hy, hsame, hsignature⟩ := hunit x hx
    exact ⟨unit, hfound, hsignature.trans (hagree y hy x hx hsame)⟩
  · rw [hsignatures]
    exact (signatures_of_serve_requests (by exact rfl) hunits hserved).1

/-- A number is asked for twice, with another one between: the unit of the first request serves both. -/
theorem replay_texts_repeated :
    let requests : List (String × Request) :=
      [("1", ⟨[], .int, []⟩), ("2", ⟨[⟨"t", .int⟩], .int, []⟩), ("1", ⟨[], .int, []⟩)]
    (∀ x ∈ requests, ∀ p ∈ x.2.fullParams, Identifier p.name) ∧
    ∃ recorded after artifacts store served last,
      Gives (requests.mapM fun x => compileText x.1 x.2) ⟨Session.recording, Hosts.empty⟩ recorded after ∧
      after.session.export = .ok (some artifacts, { after.session with batches := [] }) ∧
      Store.ofArtifacts artifacts = .ok store ∧
      Gives (requests.mapM fun x => compileText x.1 x.2) ⟨Session.serving store, Hosts.empty⟩ served last ∧
      served.map (·.signature) = recorded.map (·.signature) := by
  intro requests
  have hnames : ∀ x ∈ requests, ∀ p ∈ x.2.fullParams, Identifier p.name := by
    have hname : Identifier "t" := ⟨⟨_, _, rfl, by decide⟩, List.all_eq_true.1 (by decide)⟩
    exact List.forall_mem_cons.2 ⟨List.forall_mem_nil _, List.forall_mem_cons.2
      ⟨List.forall_mem_singleton.2 hname, List.forall_mem_singleton.2 (List.forall_mem_nil _)⟩⟩
  let f := RecordedFile.ofExprs (textFile "1") [(⟨[], .int, []⟩, .const (.int 1))]
  let g := RecordedFile.ofExprs (textFile "2") [(⟨[⟨"t", .int⟩], .int, []⟩, .const (.int 2))]
  have hother : textFile "2" ≠ textFile "1" := by decide +kernel
  obtain ⟨recorded, hrecord⟩ := @gives_record_requests [("1", ⟨[], .int, []⟩, .const (.int 1)),
    ("2", ⟨[⟨"t", .int⟩], .int, []⟩, .const (.int 2)), ("1", ⟨[], .int, []⟩, .const (.int 1))]
    Session.recording Hosts.empty rfl (List.forall_mem_cons.2 ⟨⟨parseIn_one, rfl⟩, List.forall_mem_cons.2
      ⟨⟨parseIn_two, rfl⟩, List.forall_mem_singleton.2 ⟨parseIn_one, rfl⟩⟩⟩)
  obtain ⟨artifacts, hexport, hserves⟩ := replay_texts hnames hrecord
  have hloads : ∃ store, Store.ofArtifacts artifacts = .ok store := by
    obtain ⟨hmode, hstack⟩ := open_recordedTexts Session.recording [("1", ⟨[], .int, []⟩, .const (.int 1)),
      ("2", ⟨[⟨"t", .int⟩], .int, []⟩, .const (.int 2)), ("1", ⟨[], .int, []⟩, .const (.int 1))]
    cases (Session.export_recording hmode hstack).symm.trans hexport
    have hbatches : (recordedTexts Session.recording [("1", ⟨[], .int, []⟩, .const (.int 1)),
        ("2", ⟨[⟨"t", .int⟩], .int, []⟩, .const (.int 2)), ("1", ⟨[], .int, []⟩, .const (.int 1))]).batches =
          [f, g].map RecordedFile.batch := by
      simp [recordedTexts, Session.recorded, RecordedFile.recorded, RecordedFile.ofExprs, Session.recording, hother,
        f, g]
    rw [hbatches]
    have hprinted : isFunctionName "t" = true ∧ hasDoubleUnderscore "t".toList = false := by decide +kernel
    have hf : f.Valid := RecordedFile.valid_ofExprs _ _ (List.forall_mem_singleton.2
      ⟨rfl, List.nodup_nil, List.forall_mem_nil _, List.forall_mem_nil _⟩)
    have hg : g.Valid := RecordedFile.valid_ofExprs _ _ (List.forall_mem_singleton.2
      ⟨rfl, List.nodup_singleton _, List.forall_mem_singleton.2 ⟨hprinted.1, hprinted.2⟩,
        List.forall_mem_nil _⟩)
    have hfiles : ([f, g].map (·.file)).Nodup := by
      rw [List.map_cons, List.nodup_cons]
      exact ⟨fun hmem => hother (List.mem_singleton.1 hmem).symm, List.nodup_singleton _⟩
    exact (RecordedFile.exists_load_iff (List.forall_mem_cons.2 ⟨hf, List.forall_mem_singleton.2 hg⟩)
      hfiles).2 (by decide +kernel)
  obtain ⟨store, hstore⟩ := hloads
  obtain ⟨hiff, hsignatures⟩ := hserves store hstore Hosts.empty
  obtain ⟨served, last, hserved⟩ := hiff.2 (by
    have hagree : ∀ x ∈ requests, x.1 = "1" ∧ x.2 = ⟨[], .int, []⟩ ∨ x.1 = "2" ∧ x.2 = ⟨[⟨"t", .int⟩], .int, []⟩ := by
      simp [requests]
    rintro ⟨_, _⟩ hx ⟨_, _⟩ hy hsame
    rcases hagree _ hx with ⟨rfl, rfl⟩ | ⟨rfl, rfl⟩ <;> rcases hagree _ hy with ⟨rfl, rfl⟩ | ⟨rfl, rfl⟩
    · rfl
    · exact absurd hsame.symm hother
    · exact absurd hsame hother
    · rfl)
  exact ⟨hnames, recorded, _, artifacts, store, served, last, hrecord, hexport, hstore, hserved,
    hsignatures served last hserved⟩

/-! ### Requests that are not served -/

/-- Requests that are recorded with artifacts that can be loaded, and that are not served. -/
def Desyncs (requests : List (String × Request)) : Prop :=
  ∃ recorded after artifacts store,
    Gives (requests.mapM fun x => compileText x.1 x.2) ⟨Session.recording, Hosts.empty⟩ recorded after ∧
    after.session.export = .ok (some artifacts, { after.session with batches := [] }) ∧
    Store.ofArtifacts artifacts = .ok store ∧
    ¬ ∃ served last, Gives (requests.mapM fun x => compileText x.1 x.2) ⟨Session.serving store, Hosts.empty⟩
      served last

theorem desyncs_of_texts {batches : List Batch} {store : Store}
    (h : ∀ x ∈ xs, parseIn Hosts.empty x.1 = (.ok x.2.2, Hosts.empty) ∧
      x.2.2.check x.2.1.fullParams x.2.1.returns = .ok ())
    (hbatches : (recordedTexts Session.recording xs).batches = batches)
    (hstore : Store.ofArtifacts (Artifacts.ofBatches batches) = .ok store)
    (hserve : ¬ ∃ served last, Gives ((xs.map fun x => (x.1, x.2.1)).mapM fun x => compileText x.1 x.2)
      ⟨Session.serving store, Hosts.empty⟩ served last) :
    Desyncs (xs.map fun x => (x.1, x.2.1)) := by
  obtain ⟨cs, hcs⟩ := @gives_record_requests xs Session.recording Hosts.empty rfl h
  obtain ⟨hmode, hstack⟩ := open_recordedTexts Session.recording xs
  exact ⟨cs, _, _, store, hcs, Session.export_recording hmode hstack, hbatches ▸ hstore, hserve⟩

/-- The second request for a text asks for another signature than the first one. -/
theorem desyncs_signature : Desyncs [("1", ⟨[], .int, []⟩), ("1", ⟨[⟨"t", .int⟩], .int, []⟩)] := by
  have hplain : Request.Plain ⟨[], .int, []⟩ (.const (.int 1)) :=
    ⟨rfl, List.nodup_nil, List.forall_mem_nil _, List.forall_mem_nil _⟩
  let f := RecordedFile.ofExprs (textFile "1") [(⟨[], .int, []⟩, .const (.int 1))]
  have hvalid : ∀ g ∈ [f], g.Valid :=
    List.forall_mem_singleton.2 (RecordedFile.valid_ofExprs _ _ (List.forall_mem_singleton.2 hplain))
  obtain ⟨store, hstore⟩ := (RecordedFile.exists_load_iff hvalid (List.nodup_singleton _)).2 (by decide +kernel)
  obtain ⟨units, hunits, hloaded⟩ :=
    RecordedFile.unitsFor_load hvalid (List.nodup_singleton _) hstore List.mem_cons_self
  obtain ⟨hlength, hplaces⟩ := RecordedFile.loaded_ofExprs hloaded
  obtain ⟨unit, rfl⟩ := List.length_eq_one_iff.1 hlength
  refine @desyncs_of_texts [("1", ⟨[], .int, []⟩, .const (.int 1)),
    ("1", ⟨[⟨"t", .int⟩], .int, []⟩, .const (.int 1))] [f.batch] store ?_ ?_ hstore ?_
  · exact List.forall_mem_cons.2 ⟨⟨parseIn_one, rfl⟩, List.forall_mem_singleton.2 ⟨parseIn_one, rfl⟩⟩
  · simp [recordedTexts, Session.recorded, RecordedFile.recorded, RecordedFile.ofExprs, Session.recording, f]
  · rintro ⟨served, last, hserved⟩
    have hfound : ∀ x ∈ [("1", (⟨[], .int, []⟩ : Request)), ("1", ⟨[⟨"t", .int⟩], .int, []⟩)],
        store.unitsFor (textFile x.1) = .ok [unit] :=
      List.forall_mem_cons.2 ⟨hunits, List.forall_mem_singleton.2 hunits⟩
    have hall := (@signatures_of_serve_requests _ ⟨Session.serving store, Hosts.empty⟩ _ _ rfl
      (fun x hx => ⟨unit, hfound x hx⟩) hserved).2
    have hsecond := hall _ (List.mem_cons_of_mem _ List.mem_cons_self) unit hunits
    exact absurd ((hplaces 0 _ unit rfl rfl).2.symm.trans hsecond) (by decide)

/-- The parameter of a text that opens a comment. -/
def opening : Request × Expr := (⟨[⟨"/*", .int⟩], .int, []⟩, .const (.int 1))

/-- The parameter of a text that closes a comment. -/
def closing : Request × Expr := (⟨[⟨"*/", .int⟩], .int, []⟩, .const (.int 2))

/-- The sources of the two texts. -/
def commented : List RecordedFile :=
  [RecordedFile.ofExprs ⟨"Into4724750064664787926"⟩ [opening],
    RecordedFile.ofExprs ⟨"Into8351716126930714241"⟩ [closing]]

/-- The functions of the two texts as they are printed. -/
def commentedText : String :=
  "// Generated expression bodies. Regenerate with bake_expressions.\n\n// Fn(Int) -> Int\n" ++
    "fn Into4724750064664787926_0(/*) \x7b\n    return 1;\n\x7d\n\n// Fn(Int) -> Int\n" ++
    "fn Into8351716126930714241_0(*/) \x7b\n    return 2;\n\x7d\n"

theorem chunks_commented : (RecordedFile.artifacts commented).chunks = [commentedText] := by
  have htext : Artifacts.chunkText ((RecordedFile.allUnits commented).map fun u => u.1.definition) =
      commentedText := by
    decide +kernel
  rw [RecordedFile.chunks_artifacts,
    Artifacts.pieces_of_length_le (by simp [RecordedFile.allUnits, commented, RecordedFile.ofExprs]) (by decide),
    List.map_singleton, htext]

set_option maxRecDepth 10000 in
/-- The function of the second text is part of the comment. -/
theorem load?_commentedText :
    (load? commentedText).map (fun c => (c.defines "Into4724750064664787926_0",
      c.defines "Into8351716126930714241_0")) = some (true, false) := by
  cbv

/-- The artifacts can be loaded, but they lack the unit of the second text. -/
theorem store_commented : ∃ store, Store.ofArtifacts (RecordedFile.artifacts commented) = .ok store ∧
    (∃ unit, store.unitsFor ⟨"Into4724750064664787926"⟩ = .ok [unit] ∧ unit.signature = ⟨[.int], .int⟩) ∧
    ∃ e, store.unitsFor ⟨"Into8351716126930714241"⟩ = .error e := by
  obtain ⟨chunk, hload, hdefines⟩ := Option.map_eq_some_iff.1 load?_commentedText
  rw [Prod.mk.injEq] at hdefines
  have hfirst : (RecordedFile.artifacts commented).registry.units? ⟨"Into4724750064664787926"⟩ =
      some [⟨"Into4724750064664787926_0", Artifacts.chunkFile 0, ⟨[.int], .int⟩⟩] := by
    decide +kernel
  have hsecond : (RecordedFile.artifacts commented).registry.units? ⟨"Into8351716126930714241"⟩ =
      some [⟨"Into8351716126930714241_0", Artifacts.chunkFile 0, ⟨[.int], .int⟩⟩] := by
    decide +kernel
  refine ⟨⟨(RecordedFile.artifacts commented).registry, [(Artifacts.chunkFile 0, chunk)]⟩, ?_, ?_, ?_⟩
  · refine Artifacts.ofArtifacts_eq_ok_iff.2 ⟨rfl, Store.readChunks_eq_ok_iff.2 ?_⟩
    rw [Artifacts.sources, chunks_commented, Store.sortSources, List.mapIdx_singleton, List.mergeSort_singleton]
    exact .cons ⟨rfl, hload⟩ .nil
  · refine ⟨⟨"Into4724750064664787926_0", ⟨[.int], .int⟩, chunk⟩, ?_, rfl⟩
    simp [Store.unitsFor, hfirst, Store.unitAt, hdefines.1]
  · refine ⟨.missingUnit ⟨"Into8351716126930714241"⟩ "Into8351716126930714241_0" (Artifacts.chunkFile 0), ?_⟩
    simp [Store.unitsFor, hsecond, Store.unitAt, hdefines.2]

/-- The parameters of two texts are the ends of a comment, so the function of the second one is lost. -/
theorem desyncs_names :
    Desyncs [("1", ⟨[⟨"/*", .int⟩], .int, []⟩), ("2", ⟨[⟨"*/", .int⟩], .int, []⟩)] := by
  have hfirst : textFile "1" = ⟨"Into4724750064664787926"⟩ := by decide +kernel
  have hsecond : textFile "2" = ⟨"Into8351716126930714241"⟩ := by decide +kernel
  obtain ⟨store, hstore, ⟨unit, hunit, hsignature⟩, err, herr⟩ := store_commented
  rw [← hfirst] at hunit
  rw [← hsecond] at herr
  refine @desyncs_of_texts [("1", opening), ("2", closing)] (commented.map RecordedFile.batch) store ?_ ?_ hstore ?_
  · exact List.forall_mem_cons.2 ⟨⟨parseIn_one, rfl⟩, List.forall_mem_singleton.2 ⟨parseIn_two, rfl⟩⟩
  · simp only [recordedTexts, List.foldl_cons, List.foldl_nil, Session.recorded, hfirst, hsecond]
    decide +kernel
  · rintro ⟨served, last, hserved⟩
    obtain ⟨c, mid, cs, hc, hcs, -⟩ := gives_mapM_cons.1 hserved
    have hmid := hc.symm.trans (@serve_request ("1", opening.1) ⟨Session.serving store, Hosts.empty⟩ unit rfl
      hunit hsignature)
    cases hmid
    obtain ⟨c', mid', cs', hc', -⟩ := gives_mapM_cons.1 hcs
    obtain ⟨id, opened, _, _, hopen, -⟩ := gives_within.1 hc'
    have hload : Serving.load (textFile "2") store = .error err := by
      rw [Serving.load, herr]
      rfl
    simp only [Session.openKeyed, Session.push, Session.serving, hload] at hopen
    cases hopen

/-- Not all requests that are recorded are served: a text may be asked for at two signatures, and what two
parameters are called may lose a function between them. -/
theorem replay_texts_fails :
    Desyncs [("1", ⟨[], .int, []⟩), ("1", ⟨[⟨"t", .int⟩], .int, []⟩)] ∧
      Desyncs [("1", ⟨[⟨"/*", .int⟩], .int, []⟩), ("2", ⟨[⟨"*/", .int⟩], .int, []⟩)] :=
  ⟨desyncs_signature, desyncs_names⟩

end BuildM

end Barrage
