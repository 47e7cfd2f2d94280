import Barrage.Proofs.Bake.RecordedSources
import Barrage.Proofs.Expr.FloatComparisons

/-!
# Recording and serving one expression

An accepted expression is recorded as the only unit of a source. The artifacts can be loaded exactly if no
line of the unit nests too deeply. If they can, the same request is served by that unit, and over host
objects that hold the objects of the expression the served callable gives what the compiled one gives with
the tolerant comparisons of floats.

## Main definitions

* `Request.compileAlone` — compiling an expression as the only one of a source

## Main results

* `Request.record_alone`, `Request.serve_alone` — the two sessions
* `Request.replay_alone` — the served callable
* `Request.crowded_not_loaded` — an accepted expression whose unit nests too deeply
-/

namespace Barrage

open Chunk Barrage.Expr

namespace Request

variable {r : Request} {e : Expr} (h : r.Plain e) (kind : SiteKind) (key : SiteKey)

/-- Compiling an expression as the only one of a source. -/
def compileAlone (r : Request) (e : Expr) (kind : SiteKind) (key : SiteKey) : BuildM CompileError Callable :=
  BuildM.within .bake kind key true (BuildM.compile e r)

/-- The state of a recording session behind the only source. -/
def recordedSession (r : Request) (e : Expr) (file : FileId) : Session :=
  { Session.recording with opened := [file], nextId := 1, batches := [(RecordedFile.ofExprs file [(r, e)]).batch] }

include h in
theorem valid_alone : (RecordedFile.ofExprs (FileId.identify kind key) [(r, e)]).Valid :=
  RecordedFile.valid_ofExprs kind key (List.forall_mem_singleton.2 h)

include h in
/-- Recording an expression as the only one of a source. -/
theorem record_alone (hosts : Hosts) :
    ∃ code, e.flatten.compile (r.fullParams.map (·.name)).reverse = .ok code ∧
      (r.compileAlone e kind key).run.run ⟨Session.recording, hosts⟩ =
        (.ok (r.callable (.code code)), ⟨r.recordedSession e (FileId.identify kind key), hosts⟩) := by
  obtain ⟨code, hcode, hdirect⟩ := exists_compileDirect h.check
  refine ⟨code, hcode, ?_⟩
  have hopen : Session.recording.openKeyed kind key = .ok (some 0, { Session.recording with
      stack := [⟨0, .recording { file := FileId.identify kind key }⟩]
      opened := [FileId.identify kind key], nextId := 1 }) := rfl
  have hcompile := Session.compile_recording (s := { Session.recording with
      stack := [⟨0, .recording { file := FileId.identify kind key }⟩]
      opened := [FileId.identify kind key], nextId := 1 }) rfl rfl hdirect h.recordable.unambiguous.printUnit_eq
  unfold compileAlone
  rw [BuildM.run_within, hopen]
  simp only [BuildM.run_compile, hcompile]
  rfl

/-- Serving the same request from a store in which the source has one unit of the right signature. -/
theorem serve_alone {store : Store} {unit : BakedUnit}
    (hunits : store.unitsFor (FileId.identify kind key) = .ok [unit])
    (hsignature : unit.signature = Signature.of r.fullParams r.returns) (hosts : Hosts) :
    (r.compileAlone e kind key).run.run ⟨Session.serving store, hosts⟩ =
      (.ok (r.callable (.unit unit)), ⟨{ Session.serving store with nextId := 1 }, hosts⟩) := by
  have hload : Serving.load (FileId.identify kind key) store =
      .ok ⟨FileId.identify kind key, [unit], 0⟩ := by
    rw [Serving.load, hunits]
    rfl
  have hopen : (Session.serving store).openKeyed kind key = .ok (some 0, { Session.serving store with
      stack := [⟨0, .serving ⟨FileId.identify kind key, [unit], 0⟩⟩], nextId := 1 }) := by
    simp only [Session.openKeyed, Session.push, Session.serving, hload]
    rfl
  have hserve := Session.serve_next (s := { Session.serving store with
      stack := [⟨0, .serving ⟨FileId.identify kind key, [unit], 0⟩⟩], nextId := 1 }) rfl rfl hsignature
  have hcompile : Session.compile { Session.serving store with
      stack := [⟨0, .serving ⟨FileId.identify kind key, [unit], 0⟩⟩], nextId := 1 } e r = _ := hserve
  unfold compileAlone
  rw [BuildM.run_within, hopen]
  simp only [BuildM.run_compile, hcompile]
  rfl

variable {args : List Value} {hosts : Hosts}

include h in
/-- The callable of the recorded unit, as the chunk of the unit was loaded. -/
theorem invoke_unit {unit : BakedUnit} {code : Code}
    (hcode : e.flatten.compile (r.fullParams.map (·.name)).reverse = .ok code)
    (hloaded : RecordedUnit.LoadedAs (r.recordedUnit e (FileId.identify kind key) 0, e.unitLines) unit)
    (hargs : args.map Value.type = r.params.map (·.type)) (hheld : e.ObjectsHeld hosts) :
    (r.callable (.unit unit)).invoke args hosts =
      (((code.run .tolerant hosts (r.proxyValues ++ args)).map Prod.fst).mapError
        fun _ => .baked unit.name, hosts) := by
  have hall := types_allArgs hargs
  have hlength : (r.proxyValues ++ args).length = r.fullParams.length := by
    simpa using congrArg List.length hall
  have hcall : unit.call (r.proxyValues ++ args) hosts = _ :=
    h.recordable.unambiguous.call_unit hall hloaded.keeps (hloaded.name ▸ hloaded.found) hheld.found
  rw [h.recordable.unambiguous.evalUnit_eq hall .tolerant hheld] at hcall
  have hyields : Yields r.returns (eval .tolerant hosts (Env.of r.fullParams (r.proxyValues ++ args)) e.flatten) :=
    eval_yields (inferIn_flatten h.recordable.typed) (Env.typed_of hall)
  rw [Callable.invoke_eq hosts (by exact hargs), Code.run_eq_eval hcode hlength]
  simp only [callable, Callable.runBody, hcall]
  cases heval : eval .tolerant hosts (Env.of r.fullParams (r.proxyValues ++ args)) e.flatten with
  | error err => rfl
  | ok v =>
    rw [heval] at hyields
    have htype : v.type = r.returns := hyields
    simp only [Except.mapError, htype, if_true]

/-- A callable that is compiled directly. -/
theorem invoke_compiled {code : Code} (hcheck : e.check r.fullParams r.returns = .ok ())
    (hcode : e.flatten.compile (r.fullParams.map (·.name)).reverse = .ok code)
    (hargs : args.map Value.type = r.params.map (·.type)) :
    (r.callable (.code code)).invoke args hosts =
      ((code.run .exact hosts (r.proxyValues ++ args)).map Prod.fst, hosts) := by
  have hall := types_allArgs hargs
  have hlength : (r.proxyValues ++ args).length = r.fullParams.length := by
    simpa using congrArg List.length hall
  have hyields : Yields r.returns (eval .exact hosts (Env.of r.fullParams (r.proxyValues ++ args)) e.flatten) :=
    eval_yields (inferIn_flatten (infer_of_check hcheck)) (Env.typed_of hall)
  rw [Callable.invoke_eq hosts (by exact hargs)]
  simp only [callable, Callable.runBody, Code.run_eq_eval hcode hlength]
  cases heval : eval .exact hosts (Env.of r.fullParams (r.proxyValues ++ args)) e.flatten with
  | error err => rfl
  | ok v =>
    rw [heval] at hyields
    have htype : v.type = r.returns := hyields
    simp only [htype, if_true]

include h in
/-- The callable that is compiled directly. -/
theorem invoke_code {code : Code}
    (hcode : e.flatten.compile (r.fullParams.map (·.name)).reverse = .ok code)
    (hargs : args.map Value.type = r.params.map (·.type)) :
    (r.callable (.code code)).invoke args hosts =
      ((code.run .exact hosts (r.proxyValues ++ args)).map Prod.fst, hosts) :=
  invoke_compiled h.check hcode hargs

/-- A tree that compares no floats is served with the values that the direct callable gives. -/
theorem run_tolerant {code : Code}
    (hcheck : e.check r.fullParams r.returns = .ok ())
    (hcode : e.flatten.compile (r.fullParams.map (·.name)).reverse = .ok code)
    (hargs : args.map Value.type = r.params.map (·.type))
    (hfloats : e.comparesFloats (Scope.of r.fullParams) = false) :
    (code.run .tolerant hosts (r.proxyValues ++ args)).map Prod.fst =
      (code.run .exact hosts (r.proxyValues ++ args)).map Prod.fst := by
  have hall := types_allArgs hargs
  have hlength : (r.proxyValues ++ args).length = r.fullParams.length := by
    simpa using congrArg List.length hall
  have htyped : inferIn (Scope.of r.fullParams) e = .ok r.returns := infer_of_check hcheck
  rw [Code.run_eq_eval hcode hlength, Code.run_eq_eval hcode hlength]
  refine eval_order (inferIn_flatten htyped) (Env.typed_of hall).fits ?_
  rw [comparesFloats_flatten htyped, hfloats]

/-- Record and replay of one expression. The recording session compiles the expression as a direct one
does and leaves artifacts, which can be loaded exactly if no line of the unit nests too deeply. The same
request is then served by a callable that gives, for arguments of the declared types and over host objects
that hold the objects of the expression, what the direct code gives with the tolerant comparisons of
floats, and otherwise fails as served units do. Where no floats are compared, both callables give the
same values. -/
theorem replay_alone (h : r.Plain e) (kind : SiteKind) (key : SiteKey) (hosts₀ : Hosts) :
    ∃ code session artifacts,
      e.flatten.compile (r.fullParams.map (·.name)).reverse = .ok code ∧
      (r.compileAlone e kind key).run.run ⟨Session.recording, hosts₀⟩ =
        (.ok (r.callable (.code code)), ⟨session, hosts₀⟩) ∧
      session.export = .ok (some artifacts, { session with batches := [] }) ∧
      ((∃ store, Store.ofArtifacts artifacts = .ok store) ↔
        ∀ l ∈ e.unitLines, l.levels ≤ maxLevels - 2) ∧
      ∀ store, Store.ofArtifacts artifacts = .ok store →
        ∃ unit served,
          (r.compileAlone e kind key).run.run ⟨Session.serving store, hosts₀⟩ =
            (.ok (r.callable (.unit unit)), ⟨served, hosts₀⟩) ∧
          ∀ (args : List Value) (hosts : Hosts), args.map Value.type = r.params.map (·.type) →
            e.ObjectsHeld hosts →
            (r.callable (.unit unit)).invoke args hosts =
              (((code.run .tolerant hosts (r.proxyValues ++ args)).map Prod.fst).mapError
                fun _ => .baked (Recording.unitName (FileId.identify kind key) 0), hosts) ∧
            (e.comparesFloats (Scope.of r.fullParams) = false → ∀ v,
              ((r.callable (.unit unit)).invoke args hosts).1 = .ok v ↔
                ((r.callable (.code code)).invoke args hosts).1 = .ok v) := by
  obtain ⟨code, hcode, hrecord⟩ := record_alone h kind key hosts₀
  have hvalid : ∀ f ∈ [RecordedFile.ofExprs (FileId.identify kind key) [(r, e)]], f.Valid :=
    List.forall_mem_singleton.2 (valid_alone h kind key)
  have hfiles : ([RecordedFile.ofExprs (FileId.identify kind key) [(r, e)]].map (·.file)).Nodup :=
    List.nodup_singleton _
  refine ⟨code, r.recordedSession e (FileId.identify kind key),
    RecordedFile.artifacts [RecordedFile.ofExprs (FileId.identify kind key) [(r, e)]], hcode, hrecord, rfl, ?_, ?_⟩
  · rw [RecordedFile.exists_load_iff hvalid hfiles, List.forall_mem_singleton]
    exact List.forall_mem_singleton
  · intro store hstore
    obtain ⟨units, hunits, hloaded⟩ :=
      RecordedFile.unitsFor_load hvalid hfiles hstore (List.mem_singleton_self _)
    obtain ⟨unit, rfl, hunit⟩ : ∃ unit, units = [unit] ∧ RecordedUnit.LoadedAs
        (r.recordedUnit e (FileId.identify kind key) 0, e.unitLines) unit := by
      cases hloaded with
      | cons hunit hrest =>
        cases hrest
        exact ⟨_, rfl, hunit⟩
    refine ⟨unit, _, serve_alone kind key hunits hunit.signature hosts₀, fun args hosts hargs hheld => ?_⟩
    have hname : unit.name = Recording.unitName (FileId.identify kind key) 0 := hunit.name
    have hserved := invoke_unit h kind key hcode hunit hargs hheld
    rw [hname] at hserved
    refine ⟨hserved, fun hfloats v => ?_⟩
    rw [hserved, invoke_code h hcode hargs, run_tolerant h.check hcode hargs hfloats]
    cases (code.run .exact hosts (r.proxyValues ++ args)).map Prod.fst <;> simp [Except.mapError]

/-- Half of a number is recorded, loaded and served; what overflows fails as a served unit does. -/
theorem replay_alone_half :
    let e := Expr.bind "x" (.binary .div (.var "n") (.const (.int 2))) (.call .add [.var "x", .var "n"])
    let r : Request := ⟨[⟨"n", .int⟩], .int, []⟩
    ∃ (session : Session) (artifacts : Artifacts) (store : Store) (unit : BakedUnit) (served : Session),
      session.export = .ok (some artifacts, { session with batches := [] }) ∧
      Store.ofArtifacts artifacts = .ok store ∧
      (r.compileAlone e .manualReflection (.text "unit")).run.run ⟨Session.serving store, Hosts.empty⟩ =
        (.ok (r.callable (.unit unit)), ⟨served, Hosts.empty⟩) ∧
      ((r.callable (.unit unit)).invoke [.int 7] Hosts.empty).1 = .ok (.int 10) ∧
      ((r.callable (.unit unit)).invoke [.int Int64.maxValue] Hosts.empty).1 =
        .error (.baked (Recording.unitName (FileId.identify .manualReflection (.text "unit")) 0)) := by
  intro e r
  have hname : ∀ x ∈ ["n", "x"], PlainName x := by
    have hprinted : ∀ x ∈ ["n", "x"], isFunctionName x = true ∧ hasDoubleUnderscore x.toList = false := by
      decide +kernel
    exact fun x hx => ⟨(hprinted x hx).1, (hprinted x hx).2⟩
  have hplain : r.Plain e :=
    ⟨rfl, by decide, List.forall_mem_singleton.2 (hname "n" (by decide)),
      List.forall_mem_singleton.2 (hname "x" (by decide))⟩
  obtain ⟨code, session, artifacts, hcode, -, hexport, hloads, hserves⟩ :=
    replay_alone hplain .manualReflection (.text "unit") Hosts.empty
  obtain ⟨store, hstore⟩ := hloads.2 (by decide +kernel)
  obtain ⟨unit, served, hserve, hinvoke⟩ := hserves store hstore
  have hheld : e.ObjectsHeld Hosts.empty := List.forall_mem_nil _
  have hrun (n : Int64) : (code.run .tolerant Hosts.empty [.int n]).map Prod.fst =
      eval .tolerant Hosts.empty [("n", .int n)] e.flatten :=
    have hlength : [Value.int n].length = r.fullParams.length := rfl
    Code.run_eq_eval hcode hlength .tolerant Hosts.empty
  refine ⟨session, artifacts, store, unit, served, hexport, hstore, hserve, ?_, ?_⟩
  · rw [(hinvoke [.int 7] Hosts.empty rfl hheld).1]
    change ((code.run .tolerant Hosts.empty [.int 7]).map Prod.fst).mapError _ = _
    rw [hrun]
    rfl
  · rw [(hinvoke [.int Int64.maxValue] Hosts.empty rfl hheld).1]
    change ((code.run .tolerant Hosts.empty [.int Int64.maxValue]).map Prod.fst).mapError _ = _
    rw [hrun]
    rfl

/-- The greatest of very many numbers. -/
def crowded : Expr := .call .max (List.replicate 256 (.const (.int 1)))

set_option maxRecDepth 10000 in
/-- The greatest of very many numbers is accepted and recorded, but what is recorded cannot be loaded: its
calls stand in each other and nest too deeply. -/
theorem crowded_not_loaded :
    let r : Request := ⟨[], .int, []⟩
    r.Plain crowded ∧ ∃ callable session artifacts,
      (r.compileAlone crowded .manualReflection (.text "unit")).run.run ⟨Session.recording, Hosts.empty⟩ =
        (.ok callable, ⟨session, Hosts.empty⟩) ∧
      session.export = .ok (some artifacts, { session with batches := [] }) ∧
      ¬ ∃ store, Store.ofArtifacts artifacts = .ok store := by
  intro r
  have haccepted : (crowded.check r.fullParams r.returns).toBool = true := by decide +kernel
  have hnames : crowded.boundNames = [] := by decide +kernel
  have hdeep : ∃ l ∈ crowded.unitLines, maxLevels - 2 < l.levels := by decide +kernel
  have hplain : r.Plain crowded := by
    refine ⟨?_, List.nodup_nil, List.forall_mem_nil _, fun x hx => ?_⟩
    swap
    · rw [hnames] at hx
      cases hx
    cases hcheck : crowded.check r.fullParams r.returns with
    | ok _ => rfl
    | error err =>
      rw [hcheck] at haccepted
      cases haccepted
  obtain ⟨code, -, hrecord⟩ := record_alone hplain .manualReflection (.text "unit") Hosts.empty
  refine ⟨hplain, _, _, _, hrecord, rfl, ?_⟩
  have hvalid := valid_alone hplain .manualReflection (.text "unit")
  change ¬ ∃ store, Store.ofArtifacts (RecordedFile.artifacts
    [RecordedFile.ofExprs (FileId.identify .manualReflection (.text "unit")) [(r, crowded)]]) = .ok store
  rw [RecordedFile.exists_load_iff (List.forall_mem_singleton.2 hvalid) (List.nodup_singleton _)]
  intro hfits
  obtain ⟨l, hl, hlevels⟩ := hdeep
  have hshallow : ∀ l ∈ crowded.unitLines, l.levels ≤ maxLevels - 2 :=
    hfits _ (List.mem_singleton_self _) _ (List.mem_singleton_self _)
  exact absurd (hshallow l hl) (by omega)

end Request

end Barrage
