import Barrage.Proofs.Pattern.TwinPatterns
import Barrage.Proofs.Project.LoadedScripts

/-!
# Scripts that are recorded and served

Direct and recording sessions read the texts of all scripts one after another over the same host objects, and so each
script becomes the same pattern in both. A recording session keeps the units of every script besides, in a source that
the place of the script names. A session that serves these units reads no text at all; each script becomes a pattern
that cannot be told apart from the one with code, and the host objects stay as they were.

## Main definitions

* `Script`, `Script.ReadOver` — what is read of a script over some host objects
* `Script.InTurn` — scripts that are read one after another
* `Script.source` — what a recording session keeps of a script

## Main results

* `Script.loadScripts_direct_iff` — scripts that are loaded by a direct session
* `Script.InTurn.record` — the same scripts in a recording session
* `Script.InTurn.serve` — the same scripts in a session that serves what was recorded
-/

namespace Barrage

open BuildM

/-- What is read of a script: its document, the trees of its expressions, and the pattern with the code of these trees
at their places. -/
structure Script where
  path : String
  doc : PatternDocument
  numbered : Pattern Nat
  trees : List Expr
  codes : List Callable
  pattern : Pattern Callable

namespace Script

/-- The path of a script and its pattern, as they are kept for playing. -/
def loaded (s : Script) : String × Pattern Callable := (s.path, s.pattern)

/-- The name of the source of a script that lies below a root. -/
def fileOf (root path : String) : FileId := patternFile ((Path.relativeTo? root path).getD path)

/-- What a recording session keeps of a script. -/
def source (root : String) (s : Script) : RecordedFile :=
  RecordedFile.ofExprs (fileOf root s.path) ((s.doc.expressions.map Leaf.request).zip s.trees)

variable {disk : Disk} {root : String} {s : Script} {hosts later last base : Hosts} {state after : BuildState}
  {scripts : List Script} {paths : List String} {session : Session}

/-- A script is read over some host objects, which leaves others. -/
structure ReadOver (disk : Disk) (s : Script) (hosts later : Hosts) : Prop where
  text : ∃ text, disk.readText s.path = .ok text ∧ PatternDocument.parse? text = some s.doc
  numbered : s.doc.numbered = .ok s.numbered
  compiles : Compiles Prod.snd Leaf.request hosts s.doc.expressions s.trees s.codes later
  pattern : ∀ g, PlacedFrom 0 s.codes g → s.pattern = s.numbered.map g

/-- Scripts are read one after another. -/
inductive InTurn (disk : Disk) : Hosts → List Script → Hosts → Prop
  | nil {hosts : Hosts} : InTurn disk hosts [] hosts
  | cons {hosts later last : Hosts} {s : Script} {scripts : List Script} (hfirst : s.ReadOver disk hosts later)
    (hrest : InTurn disk later scripts last) : InTurn disk hosts (s :: scripts) last

/-- Every script was read at some time, and since then timers were only added. -/
theorem InTurn.readOver (h : InTurn disk hosts scripts last) :
    hosts.Grows last ∧ ∀ s ∈ scripts, ∃ before later, s.ReadOver disk before later ∧ later.Grows last := by
  induction h with
  | nil => exact ⟨.refl _, List.forall_mem_nil _⟩
  | cons hfirst _ ih =>
    obtain ⟨hgrows, hrest⟩ := ih
    exact ⟨hfirst.compiles.grows.trans hgrows, List.forall_mem_cons.2 ⟨⟨_, _, hfirst, hgrows⟩, hrest⟩⟩

/-! ### Loading all scripts -/

/-- A script that is loaded, and those after it. -/
theorem loadScripts_cons_iff {path : String} {patterns : List (String × Pattern Callable)} :
    Project.loadScripts disk root (path :: paths) state = .ok ((patterns, []), after) ↔
      ∃ pattern mid others, Gives (loadFile disk root path) state pattern mid ∧
        Project.loadScripts disk root paths mid = .ok ((others, []), after) ∧ patterns = (path, pattern) :: others := by
  rw [Project.loadScripts]
  rcases hload : (loadFile disk root path).run.run state with ⟨failure | pattern, mid⟩
  · constructor
    · intro h
      dsimp only at h
      split at h
      · cases h
      · obtain ⟨⟨⟨others, failed⟩, later⟩, -, hresult⟩ := Except.bind_eq_ok_iff.1 h
        cases hresult
    · rintro ⟨pattern, mid', others, hgives, -⟩
      cases hload.symm.trans hgives
  · constructor
    · intro h
      obtain ⟨⟨⟨others, failed⟩, later⟩, hrest, hresult⟩ := Except.bind_eq_ok_iff.1 h
      cases hresult
      exact ⟨pattern, mid, others, hload, hrest, rfl⟩
    · rintro ⟨pattern', mid', others, hgives, hrest, rfl⟩
      cases hload.symm.trans hgives
      exact Except.bind_eq_ok_iff.2 ⟨_, hrest, rfl⟩

/-- What a session loads of a script it loads of the text. -/
theorem gives_loadFile_of_text {path text : String} {pattern : Pattern Callable} (htext : disk.readText path = .ok text) :
    Gives (loadFile disk root path) state pattern after ↔
      Gives (loadPattern ((Path.relativeTo? root path).getD path) text) state pattern after := by
  unfold loadFile
  rw [htext]
  exact gives_adapt

/-! ### Direct sessions -/

/-- A direct session compiles a text over the host objects that reading it leaves. -/
theorem gives_direct_text {r : Request} {text : String} {c : Callable} (hmode : state.session.mode = .direct) :
    Gives (compileSource text r) state c after ↔
      ∃ e code, (Expr.parseIn state.hosts text).1 = .ok e ∧ r.Accepts e ∧
        e.flatten.compile (r.fullParams.map (·.name)).reverse = .ok code ∧ c = r.callable (.code code) ∧
        after = ⟨state.session, (Expr.parseIn state.hosts text).2⟩ := by
  have hserve : state.session.mode ≠ .serve := by
    rw [hmode]
    decide
  rw [gives_iff, run_compileSource, if_neg hserve, run_bind, run_parse]
  cases hparse : (Expr.parseIn state.hosts text).1 with
  | error err =>
    constructor
    · rintro ⟨hresult, -⟩
      cases hresult
    · rintro ⟨_, _, hparse', -⟩
      cases hparse'
  | ok e =>
    have hsession : (state.session.compile e r).2 = state.session := by simp [Session.compile, hmode]
    have hresult : (state.session.compile e r).1 = r.compileDirect e := by simp [Session.compile, hmode]
    simp only [Except.mapError, run_compile, hsession, hresult]
    constructor
    · rintro ⟨hdirect, rfl⟩
      have haccepts : r.Accepts e := ⟨Request.check_of_compileDirect hdirect, Expr.sourceNamed_of_parse hparse⟩
      obtain ⟨code, hcode, hdirect'⟩ := Request.exists_compileDirect haccepts.check
      exact ⟨e, code, rfl, haccepts, hcode, Except.ok.inj (hdirect.symm.trans hdirect'), rfl⟩
    · rintro ⟨_, code, hparse', haccepts, hcode, rfl, rfl⟩
      cases hparse'
      obtain ⟨code', hcode', hdirect⟩ := Request.exists_compileDirect haccepts.check
      cases hcode.symm.trans hcode'
      exact ⟨hdirect, rfl⟩

/-- The same for the expressions of a document. -/
theorem gives_direct_texts {xs : List (ValueType × String)} {cs : List Callable} (hmode : state.session.mode = .direct) :
    Gives (xs.mapM (compileAt compileLeaf)) state cs after ↔
      ∃ es, Compiles Prod.snd Leaf.request state.hosts xs es cs after.hosts ∧ after.session = state.session := by
  induction xs generalizing state cs with
  | nil =>
    rw [gives_mapM_nil]
    constructor
    · rintro ⟨rfl, rfl⟩
      exact ⟨[], .nil, rfl⟩
    · rintro ⟨es, hcompiles, hsession⟩
      obtain ⟨session, hosts⟩ := state
      obtain ⟨session', hosts'⟩ := after
      obtain rfl : session' = session := hsession
      cases hcompiles
      exact ⟨rfl, rfl⟩
  | cons x xs ih =>
    rw [gives_mapM_cons]
    constructor
    · rintro ⟨c, mid, cs, hfirst, hrest, rfl⟩
      obtain ⟨e, code, hparse, haccepts, hcode, rfl, rfl⟩ :=
        (gives_direct_text hmode).1 ((gives_compileLeaf x state c mid).1 hfirst)
      obtain ⟨es, hcompiles, hsession⟩ :=
        (@ih ⟨state.session, (Expr.parseIn state.hosts x.2).2⟩ cs hmode).1 hrest
      exact ⟨e :: es, .cons hparse haccepts hcode hcompiles, hsession⟩
    · rintro ⟨_, hcompiles, hsession⟩
      cases hcompiles with
      | @cons _ _ _ _ e es code cs hparse haccepts hcode hrest =>
        have hfirst := (gives_compileLeaf x state _ _).2
          ((gives_direct_text hmode).2 ⟨e, code, hparse, haccepts, hcode, rfl, rfl⟩)
        exact ⟨_, _, cs, hfirst, (@ih ⟨state.session, (Expr.parseIn state.hosts x.2).2⟩ cs hmode).2
          ⟨es, hrest, hsession⟩, rfl⟩

/-- When a direct session loads a script. -/
theorem gives_direct_script {path : String} {pattern : Pattern Callable} (hmode : state.session.mode = .direct) :
    Gives (loadFile disk root path) state pattern after ↔
      ∃ s : Script, s.loaded = (path, pattern) ∧ s.ReadOver disk state.hosts after.hosts ∧
        after.session = state.session := by
  have hopen : state.session.openKeyed .scriptDump (.path ((Path.relativeTo? root path).getD path)) =
      .ok (none, state.session) := by
    simp [Session.openKeyed, Session.push, hmode]
  constructor
  · intro h
    cases htext : disk.readText path with
    | error e =>
      unfold loadFile at h
      rw [htext] at h
      cases (gives_iff.1 h).1
    | ok text =>
      obtain ⟨doc, hdoc, hwithin⟩ := gives_loadPattern.1 ((gives_loadFile_of_text htext).1 h)
      obtain ⟨mid, closed, hcompile, hclose, rfl⟩ := (gives_within_opened hopen).1 hwithin
      cases hclose
      obtain ⟨cs, numbered, hcs, hnumbered, hpattern⟩ := PatternDocument.exists_of_compile hcompile
      obtain ⟨es, hcompiles, hsession⟩ := (gives_direct_texts hmode).1 hcs
      exact ⟨⟨path, doc, numbered, es, cs, pattern⟩, rfl, ⟨⟨text, htext, hdoc⟩, hnumbered, hcompiles, hpattern⟩,
        hsession⟩
  · rintro ⟨s, hs, hread, hsession⟩
    obtain ⟨rfl, rfl⟩ := Prod.mk.inj hs
    obtain ⟨text, htext, hdoc⟩ := hread.text
    obtain ⟨g, hg⟩ := PhaseDocument.exists_placedFrom 0 s.codes
    have hcompile := PatternDocument.gives_compile
      ((gives_direct_texts hmode).2 ⟨s.trees, hread.compiles, hsession⟩) hread.numbered hg
    rw [hread.pattern g hg]
    exact (gives_loadFile_of_text htext).2 (gives_loadPattern.2 ⟨s.doc, hdoc,
      (gives_within_opened hopen).2 ⟨after, after.session, hcompile, rfl, rfl⟩⟩)

/-- A direct session loads scripts without exception if they are read one after another. -/
theorem loadScripts_direct_iff {patterns : List (String × Pattern Callable)} (hmode : state.session.mode = .direct) :
    Project.loadScripts disk root paths state = .ok ((patterns, []), after) ↔
      ∃ scripts : List Script, scripts.map path = paths ∧ scripts.map loaded = patterns ∧
        InTurn disk state.hosts scripts after.hosts ∧ after.session = state.session := by
  induction paths generalizing state patterns with
  | nil =>
    constructor
    · intro h
      cases h
      exact ⟨[], rfl, rfl, .nil, rfl⟩
    · rintro ⟨scripts, hpaths, rfl, hscripts, hsession⟩
      obtain rfl := List.map_eq_nil_iff.1 hpaths
      obtain ⟨session, hosts⟩ := state
      obtain ⟨session', hosts'⟩ := after
      obtain rfl : session' = session := hsession
      cases hscripts
      rfl
  | cons path paths ih =>
    rw [loadScripts_cons_iff]
    constructor
    · rintro ⟨pattern, mid, others, hfirst, hrest, rfl⟩
      obtain ⟨s, hs, hread, hsession⟩ := (gives_direct_script hmode).1 hfirst
      obtain ⟨scripts, rfl, rfl, hscripts, hlast⟩ := (ih (hsession.symm ▸ hmode)).1 hrest
      obtain ⟨rfl, rfl⟩ := Prod.mk.inj hs
      exact ⟨s :: scripts, rfl, rfl, .cons hread hscripts, hlast.trans hsession⟩
    · rintro ⟨scripts, hpaths, rfl, hscripts, hsession⟩
      obtain ⟨s, scripts, rfl, rfl, rfl⟩ := List.map_eq_cons_iff.1 hpaths
      cases hscripts with
      | @cons _ later _ _ _ hread hscripts =>
        exact ⟨s.pattern, ⟨state.session, later⟩, scripts.map loaded,
          (gives_direct_script hmode).2 ⟨s, rfl, hread, rfl⟩,
          (@ih ⟨state.session, later⟩ _ hmode).2 ⟨scripts, rfl, rfl, hscripts, hsession⟩, rfl⟩

/-! ### Recording sessions -/

/-- A recording session keeps what was read of scripts, and loads the same patterns. -/
theorem InTurn.record (h : InTurn disk hosts scripts last) (hmode : session.mode = .record)
    (hnew : ∀ s ∈ scripts, fileOf root s.path ∉ session.opened)
    (hfiles : (scripts.map fun s => fileOf root s.path).Nodup) :
    ∃ recorded : Session, Project.loadScripts disk root (scripts.map path) ⟨session, hosts⟩ =
        .ok ((scripts.map loaded, []), ⟨recorded, last⟩) ∧
      recorded.mode = .record ∧ recorded.stack = session.stack ∧ recorded.batches =
        session.batches ++ (RecordedFile.recorded (scripts.map (source root))).map RecordedFile.batch := by
  induction h generalizing session with
  | nil => exact ⟨session, rfl, hmode, rfl, (List.append_nil _).symm⟩
  | @cons hosts later last s scripts hread _ ih =>
    obtain ⟨hfresh, hothers⟩ := List.forall_mem_cons.1 hnew
    rw [List.map_cons, List.nodup_cons] at hfiles
    obtain ⟨text, htext, hdoc⟩ := hread.text
    have hgives : Gives (loadPattern ((Path.relativeTo? root s.path).getD s.path) text) ⟨session, hosts⟩ s.pattern
        ⟨session.recorded (fileOf root s.path) ((s.doc.expressions.map Leaf.request).zip s.trees), later⟩ :=
      (@gives_record_pattern ((Path.relativeTo? root s.path).getD s.path, text) ⟨session, hosts⟩ _ _ hmode).2
        ⟨_, _, _, _, later, hdoc, hread.numbered, hread.compiles, hread.pattern, rfl⟩
    rw [Session.recorded_of_notMem hfresh] at hgives
    -- Only the first opening of a source counts, and all of these are the first: the sources have different names.
    have hnext : ∀ s' ∈ scripts, fileOf root s'.path ∉ fileOf root s.path :: session.opened := by
      intro s' hs' hmem
      rcases List.mem_cons.1 hmem with heq | hmem
      · exact hfiles.1 (List.mem_map.2 ⟨s', hs', heq⟩)
      · exact hothers s' hs' hmem
    obtain ⟨recorded, hload, hlast, hstack, hbatches⟩ := @ih { session with
      opened := fileOf root s.path :: session.opened
      nextId := session.nextId + 1
      batches := session.batches ++ (RecordedFile.recorded [source root s]).map RecordedFile.batch }
      hmode hnext hfiles.2
    refine ⟨recorded, loadScripts_cons_iff.2 ⟨_, _, _, (gives_loadFile_of_text htext).2 hgives, hload, rfl⟩, hlast,
      hstack, ?_⟩
    have happend : RecordedFile.recorded (source root s :: scripts.map (source root)) =
        RecordedFile.recorded [source root s] ++ RecordedFile.recorded (scripts.map (source root)) :=
      RecordedFile.recorded_append [source root s] _
    rw [hbatches, List.map_cons, happend, List.map_append, List.append_assoc]

/-- The units of a script can be read up to the first name that is refused. -/
theorem ReadOver.spelled (h : s.ReadOver disk hosts later) (root : String) : (source root s).Spelled := by
  refine RecordedFile.spelled_ofExprs _ _ ?_
  rintro ⟨r, e⟩ hx
  rw [List.zip_map_left, List.mem_map] at hx
  obtain ⟨⟨x, e'⟩, hx, heq⟩ := hx
  cases heq
  exact ⟨List.forall₂_zip h.compiles.accepts hx, Leaf.identifier_params⟩

/-! ### Sessions that serve -/

/-- What a session that serves loads of a script is its pattern with the units at their places. -/
theorem ReadOver.gives_units {disk' : Disk} {units : List BakedUnit} {g : Nat → Callable}
    (h : s.ReadOver disk hosts later) (htext : disk'.readText s.path = disk.readText s.path)
    (hmode : state.session.mode = .serve) (hunits : state.session.store.unitsFor (fileOf root s.path) = .ok units)
    (hsignatures : List.Forall₂ (fun x unit =>
      unit.signature = Signature.of (Leaf.request x).fullParams (Leaf.request x).returns) s.doc.expressions units)
    (hg : PlacedFrom 0
      (List.zipWith (fun x unit => (Leaf.request x).callable (.unit unit)) s.doc.expressions units) g) :
    Gives (loadFile disk' root s.path) state (s.numbered.map g)
      ⟨{ state.session with nextId := state.session.nextId + 1 }, state.hosts⟩ := by
  obtain ⟨id, opened, mid, hopen, hserve, -, hclose, hhosts⟩ :=
    serve_source gives_compileLeaf hmode hunits hsignatures
  have hcompile := PatternDocument.gives_compile hserve h.numbered hg
  obtain ⟨text, hread, hdoc⟩ := h.text
  refine (gives_loadFile_of_text (htext.trans hread)).2 (gives_loadPattern.2 ⟨s.doc, hdoc,
    gives_within.2 ⟨_, _, _, _, hopen, hcompile, hclose, ?_⟩⟩)
  rw [hhosts]

/-- Serving the units of a script that compares no floats. -/
theorem ReadOver.serve {disk' : Disk} {fs : List RecordedFile} (h : s.ReadOver disk hosts later)
    (hlater : later.Grows base) (hfloats : ∀ e ∈ s.trees, e.comparesFloats (Expr.Scope.of Leaf.params) = false)
    (htext : disk'.readText s.path = disk.readText s.path) (hsource : source root s ∈ fs)
    (hspelled : ∀ f ∈ fs, f.Spelled) (hfiles : (fs.map (·.file)).Nodup)
    (hstore : Store.ofArtifacts (RecordedFile.artifacts (RecordedFile.recorded fs)) = .ok state.session.store)
    (hmode : state.session.mode = .serve) :
    ∃ served, s.pattern.Twins base served ∧ Gives (loadFile disk' root s.path) state served
      ⟨{ state.session with nextId := state.session.nextId + 1 }, state.hosts⟩ := by
  -- The store has one unit for each expression, with the signature that the expression asks for.
  obtain ⟨units, hunits, hloaded⟩ := RecordedFile.unitsFor_recorded hspelled hfiles hstore hsource
  obtain ⟨hcount, hplaces⟩ := RecordedFile.loaded_ofExprs hloaded
  have hlength := h.compiles.accepts.length_eq
  rw [List.length_zip, List.length_map, ← hlength, Nat.min_self] at hcount
  have hsignatures : List.Forall₂ (fun x unit =>
      unit.signature = Signature.of (Leaf.request x).fullParams (Leaf.request x).returns) s.doc.expressions units := by
    refine List.forall₂_iff_get.2 ⟨hcount.symm, fun i hi hi' => ?_⟩
    refine (hplaces i (Leaf.request s.doc.expressions[i], s.trees[i]) units[i] ?_ (List.getElem?_eq_getElem hi')).2
    rw [List.getElem?_zip_eq_some, List.getElem?_map, List.getElem?_eq_getElem hi]
    exact ⟨rfl, List.getElem?_eq_getElem (hlength ▸ hi)⟩
  have hnumbered : List.Forall₂ RecordedUnit.LoadedAs (((s.doc.expressions.map Leaf.request).zip s.trees).mapIdx
      fun i x => (x.1.recordedUnit x.2 (fileOf root s.path) (0 + i), x.2.unitLines)) units := by
    simp only [Nat.zero_add]
    exact hloaded
  have htwins := h.compiles.twins hlater (fun x hx => s.doc.type_of_mem_expressions hx) hfloats hnumbered
  obtain ⟨g, hg, hpattern⟩ := Pattern.twins_of_placed htwins h.pattern
  exact ⟨_, hpattern, h.gives_units htext hmode hunits hsignatures hg⟩

/-- Scripts are served one after another. -/
theorem serve_all {disk' : Disk} {fs : List RecordedFile}
    (hread : ∀ s ∈ scripts, ∃ before later, s.ReadOver disk before later ∧ later.Grows base)
    (hfloats : ∀ s ∈ scripts, ∀ e ∈ s.trees, e.comparesFloats (Expr.Scope.of Leaf.params) = false)
    (htexts : ∀ s ∈ scripts, disk'.readText s.path = disk.readText s.path)
    (hsources : ∀ s ∈ scripts, source root s ∈ fs) (hspelled : ∀ f ∈ fs, f.Spelled) (hfiles : (fs.map (·.file)).Nodup)
    (hstore : Store.ofArtifacts (RecordedFile.artifacts (RecordedFile.recorded fs)) = .ok state.session.store)
    (hmode : state.session.mode = .serve) :
    ∃ served last, List.Forall₂ (fun x y => x.1 = y.1 ∧ x.2.Twins base y.2) (scripts.map loaded) served ∧
      Project.loadScripts disk' root (scripts.map path) state = .ok ((served, []), last) ∧
      last.session.mode = .serve ∧ last.hosts = state.hosts := by
  induction scripts generalizing state with
  | nil => exact ⟨[], state, .nil, rfl, hmode, rfl⟩
  | cons s scripts ih =>
    obtain ⟨⟨before, later, hfirst, hgrows⟩, hread⟩ := List.forall_mem_cons.1 hread
    obtain ⟨hfloat, hfloats⟩ := List.forall_mem_cons.1 hfloats
    obtain ⟨htext, htexts⟩ := List.forall_mem_cons.1 htexts
    obtain ⟨hsource, hsources⟩ := List.forall_mem_cons.1 hsources
    obtain ⟨pattern, htwins, hgives⟩ := hfirst.serve hgrows hfloat htext hsource hspelled hfiles hstore hmode
    obtain ⟨served, last, hserved, hload, hlast, hhosts⟩ :=
      @ih ⟨{ state.session with nextId := state.session.nextId + 1 }, state.hosts⟩ hread hfloats htexts hsources hstore hmode
    exact ⟨(s.path, pattern) :: served, last, .cons ⟨rfl, htwins⟩ hserved,
      loadScripts_cons_iff.2 ⟨_, _, _, hgives, hload, rfl⟩, hlast, hhosts⟩

/-- Scripts that were recorded are served, if the artifacts can be loaded and no script compares floats. Nothing is read
but their documents, which are as they were. -/
theorem InTurn.serve {disk' : Disk} {store : Store} (h : InTurn disk hosts scripts last)
    (hfloats : ∀ s ∈ scripts, ∀ e ∈ s.trees, e.comparesFloats (Expr.Scope.of Leaf.params) = false)
    (htexts : ∀ s ∈ scripts, disk'.readText s.path = disk.readText s.path)
    (hfiles : (scripts.map fun s => fileOf root s.path).Nodup)
    (hstore : Store.ofArtifacts (RecordedFile.artifacts (RecordedFile.recorded (scripts.map (source root)))) = .ok store)
    (hosts' : Hosts) :
    ∃ served after, List.Forall₂ (fun x y => x.1 = y.1 ∧ x.2.Twins last y.2) (scripts.map loaded) served ∧
      Project.loadScripts disk' root (scripts.map path) ⟨Session.serving store, hosts'⟩ = .ok ((served, []), after) ∧
      after.session.mode = .serve ∧ after.hosts = hosts' := by
  obtain ⟨-, hread⟩ := h.readOver
  refine serve_all hread hfloats htexts (fun s hs => List.mem_map_of_mem hs) ?_ ?_ hstore rfl
  · refine List.forall_mem_map.2 fun s hs => ?_
    obtain ⟨before, later, hfirst, -⟩ := hread s hs
    exact hfirst.spelled root
  · rw [List.map_map]
    exact hfiles

end Script

end Barrage
