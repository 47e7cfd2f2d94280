import Barrage.Proofs.Bake.Exporting
import Barrage.Proofs.Bake.Layout
import Barrage.Proofs.Bake.RecordedSources
import Barrage.Proofs.Chunk.LegibleUnits

/-!
# Looking up what was recorded

The references of a registry are found again by the names of functions in the chunk of their place. That a unit was
placed there does not make it found: nothing checks how a source, a parameter or a binding is called, and printed
names may close a comment, open one, or come out of the reader as other names. If all names are spelled like words,
the functions of a chunk that is loaded are those that were written to it, under their names. So the units of a
source are those that were recorded for it, and a source without an entry has none.

## Main definitions

* `Act.Named` — calls in which all names are spelled like words
* `Exchange.source` — the source of a recording, with the units of its first opening

## Main results

* `Session.exists_sources` — exported artifacts are those of the sources of their batches
* `Session.unitsFor_exported` — what is found in the artifacts of a recording session
* `Session.exported_or_kept` — no source of a recording is forgotten
* `Artifacts.keeps_units` — the layout of artifacts, and what is found in them
-/

namespace Barrage

open Chunk Barrage.Expr

/-! ### Names -/

theorem Identifier.append {x y : String} (hx : Identifier x) {cs : List Char} (hy : y.toList = x.toList ++ cs)
    (hcs : ∀ c ∈ cs, Scanned.continuesName c = true) : Identifier y := by
  obtain ⟨c, ds, hds, hopens⟩ := hx.opens
  refine ⟨⟨c, ds ++ cs, by rw [hy, hds, List.cons_append], hopens⟩, ?_⟩
  rw [hy]
  exact List.forall_mem_append.2 ⟨hx.continues, hcs⟩

/-- The units of a source are named like it. -/
theorem identifier_unitName {file : FileId} (hfile : Identifier file.text) (index : Nat) :
    Identifier (Recording.unitName file index) := by
  refine hfile.append (Recording.toList_unitName file index) ?_
  exact List.forall_mem_cons.2 ⟨by decide, fun c hc => continuesName_of_mem_toDigits hc⟩

/-- Sources with a key are named like words. -/
theorem identifier_identify (kind : SiteKind) (key : SiteKey) : Identifier (FileId.identify kind key).text := by
  obtain ⟨n, hn⟩ := FileId.toList_identify kind key
  have htag : Identifier kind.tag := by
    cases kind <;> exact ⟨⟨_, _, rfl, by decide⟩, List.all_eq_true.1 (by decide)⟩
  exact htag.append hn fun c hc => continuesName_of_mem_toDigits hc

/-- Calls in which sources, parameters and bindings have names that are spelled like words: a letter or an
underscore, and then letters, digits and underscores. -/
def Act.Named : Act → Prop
  | push file => Identifier file.text
  | compile e r => (∀ p ∈ r.fullParams, Identifier p.name) ∧ ∀ x ∈ e.boundNames, Identifier x
  | _ => True

theorem Act.Named.file {act : Act} (h : act.Named) {file : FileId} (hfile : act.file? = some file) :
    Identifier file.text := by
  cases act with
  | push other =>
    cases hfile
    exact h
  | «open» kind key =>
    cases hfile
    exact identifier_identify kind key
  | _ => cases hfile

/-! ### Recorded units -/

/-- A call that was accepted, with names that are spelled like words. -/
structure RecordedCall (call : Expr × Request) : Prop where
  check : call.1.check call.2.fullParams call.2.returns = .ok ()
  params : ∀ p ∈ call.2.fullParams, Identifier p.name
  bound : ∀ x ∈ call.1.boundNames, Identifier x

namespace RecordedCall

variable {call : Expr × Request} (h : RecordedCall call)

include h

theorem body (file : FileId) (index : Nat) :
    (RecordedUnit.ofCall file index call).body = "\n".intercalate (call.1.unitLines.map Line.toText) := by
  simp only [RecordedUnit.ofCall, printUnit_of_infer (infer_of_check h.check) h.bound]

/-- The unit of a call has a name like a word, and can be read up to the first name that is refused. -/
theorem worded {file : FileId} (hfile : Identifier file.text) (index : Nat) :
    (RecordedUnit.ofCall file index call).Worded call.1.unitLines where
  name := identifier_unitName hfile index
  spelled hword :=
    { nonempty := by simp [unitLines, Linear.lines]
      body := h.body file index
      name := (RecordedUnit.isFunctionName_of_identifier (identifier_unitName hfile index)).2
        ⟨hword, isFree_unitName file index⟩
      params := h.params
      lines := fun hnames => readsOn_unitLines (infer_of_check h.check) h.bound
        (forall_mem_scope (P := fun x => isFunctionName x = true) hnames) }

end RecordedCall

/-! ### Sources of a history -/

namespace Exchange

variable {steps : List Exchange} {id : Nat} {file : FileId}

/-- The units that were recorded under a number, each with the lines of its body. -/
def units (steps : List Exchange) (id : Nat) (file : FileId) : List (RecordedUnit × List Line) :=
  (calls steps id).mapIdx fun index call => (RecordedUnit.ofCall file index call, call.1.unitLines)

/-- A source with the units of its first opening. -/
def source (steps : List Exchange) (file : FileId) : RecordedFile :=
  ⟨file, units steps ((opener? steps file).getD 0) file⟩

theorem batch_of_batchOf? {batch : Batch} (h : batchOf? steps id = some batch) :
    batch = (source steps batch.file).batch := by
  obtain ⟨hopener, -, recording, hunits, hexport⟩ := batchOf?_eq_some h
  have hfirst : (source steps batch.file).units.map Prod.fst = recording.units := by
    rw [hunits]
    refine List.ext_getElem? fun i => ?_
    simp only [source, units, hopener, Option.getD_some, List.getElem?_map, List.getElem?_mapIdx, Option.map_map]
    rfl
  have hbatch : (source steps batch.file).batch = ⟨batch.file, recording.units.map (·.definition),
      recording.units.map fun u => ⟨u.name, u.signature⟩⟩ := by
    rw [← hfirst, List.map_map, List.map_map]
    rfl
  obtain ⟨-, -, rfl⟩ := Recording.export?_eq_some_iff.1 hexport
  exact hbatch.symm

theorem worded_source (hfile : Identifier file.text)
    (hcalls : ∀ id, ∀ call ∈ calls steps id, RecordedCall call) : (source steps file).Worded where
  named i u hu := by
    simp only [source, units, List.getElem?_mapIdx] at hu
    obtain ⟨call, -, rfl⟩ := Option.map_eq_some_iff.1 hu
    rfl
  lines := by
    intro u hu
    obtain ⟨i, hi, rfl⟩ := List.mem_mapIdx.1 hu
    exact (hcalls _ _ (List.getElem_mem hi)).worded hfile i
  body := by
    intro u hu
    obtain ⟨i, hi, rfl⟩ := List.mem_mapIdx.1 hu
    exact isBody_unitLines _

end Exchange

namespace Session

open Exchange

variable {acts : List Act} {s : Session} {step : Exchange}

/-- The steps of a history are those of its calls, in sessions of the same mode. -/
theorem exists_step (h : step ∈ s.history acts) : ∃ act ∈ acts, ∃ before : Session,
    before.mode = s.mode ∧ step = before.step act := by
  induction acts generalizing s with
  | nil => cases h
  | cons act acts ih =>
    rcases List.mem_cons.1 h with rfl | h
    · exact ⟨act, List.mem_cons_self, s, rfl, rfl⟩
    · obtain ⟨act', hact', before, hmode, rfl⟩ := ih h
      exact ⟨act', List.mem_cons_of_mem _ hact', before, hmode.trans (s.moves_perform act).labels_cases.1, rfl⟩

/-- What was opened has a name that is spelled like a word. -/
theorem identifier_of_mem_openings (hnamed : ∀ act ∈ acts, act.Named) {id : Nat} {file : FileId}
    (h : (id, file) ∈ openings (s.history acts)) : Identifier file.text := by
  obtain ⟨step, hstep, hopened⟩ := List.mem_filterMap.1 h
  obtain ⟨act, hact, before, -, rfl⟩ := exists_step hstep
  refine (hnamed act hact).file ?_
  unfold opened? at hopened
  split at hopened
  · rename_i hfile _
    cases hopened
    exact hfile
  · cases hopened

theorem check_of_perform (hmode : s.mode = .record) {e : Expr} {r : Request} {callable : Callable}
    (h : (s.perform (.compile e r)).1 = .ok (.compiled callable)) : e.check r.fullParams r.returns = .ok () := by
  cases hdirect : r.compileDirect e with
  | ok direct => exact Request.check_of_compileDirect hdirect
  | error err =>
    have hcompile : s.compile e r = (.error err, s) := by simp [compile, hmode, compileRecorded, hdirect]
    rw [perform, hcompile] at h
    cases h

/-- What was recorded was accepted. -/
theorem recordedCall_of_mem_calls (hmode : s.mode = .record) (hnamed : ∀ act ∈ acts, act.Named) {id : Nat}
    {call : Expr × Request} (h : call ∈ calls (s.history acts) id) : RecordedCall call := by
  obtain ⟨⟨id', call'⟩, hmem, rfl⟩ := List.mem_map.1 h
  obtain ⟨step, hstep, hcall⟩ := List.mem_filterMap.1 (List.mem_of_mem_filter hmem)
  obtain ⟨act, hact, before, hbefore, rfl⟩ := exists_step hstep
  unfold call? at hcall
  split at hcall
  · rename_i e r callable source rest hact' hanswer hstack
    cases hcall
    obtain rfl : act = .compile e r := hact'
    obtain ⟨hparams, hbound⟩ := hnamed _ hact
    exact ⟨check_of_perform (hbefore.trans hmode) hanswer, hparams, hbound⟩
  · cases hcall

/-- The artifacts of an export are those of sources, which are named like words and were recorded in their first
openings. -/
theorem exists_sources (hnamed : ∀ act ∈ acts, act.Named) {artifacts : Artifacts}
    (h : artifacts ∈ exports (recording.history acts)) :
    ∃ files : List FileId, files.Nodup ∧
      artifacts = RecordedFile.artifacts (files.map (source (recording.history acts))) ∧
      ∀ file ∈ files, (source (recording.history acts) file).Worded ∧
        ∃ id, opener? (recording.history acts) file = some id ∧ id ∈ closings (recording.history acts) ∧
          calls (recording.history acts) id ≠ [] := by
  obtain ⟨drained, hexports, hbatches, hnodup, -⟩ := (tracks_history acts).exists_drained
  rw [hexports] at h
  obtain ⟨batches, hmem, rfl⟩ := List.mem_map.1 h
  -- What was exported was left by openings that were closed, and a batch says which source it is of.
  have hleft : ∀ batch ∈ batches, ∃ id ∈ closings (recording.history acts),
      batchOf? (recording.history acts) id = some batch := by
    intro batch hbatch
    have hclosed : batch ∈ (closings (recording.history acts)).filterMap (batchOf? (recording.history acts)) := by
      rw [← hbatches]
      exact List.mem_append_left _ (List.mem_flatten_of_mem hmem hbatch)
    exact List.mem_filterMap.1 hclosed
  have hsources : (batches.map (·.file)).map (fun file => (source (recording.history acts) file).batch) = batches := by
    rw [List.map_map]
    refine (List.map_congr_left fun batch hbatch => ?_).trans (List.map_id _)
    obtain ⟨id, -, hid⟩ := hleft batch hbatch
    exact (batch_of_batchOf? hid).symm
  refine ⟨batches.map (·.file), hnodup batches hmem, ?_, List.forall_mem_map.2 fun batch hbatch => ?_⟩
  · rw [RecordedFile.artifacts, List.map_map]
    exact congrArg Artifacts.ofBatches hsources.symm
  · obtain ⟨id, hclosed, hid⟩ := hleft batch hbatch
    obtain ⟨hopener, hcalls, -⟩ := batchOf?_eq_some hid
    refine ⟨worded_source ?_ fun id' call hcall => recordedCall_of_mem_calls rfl hnamed hcall, id, hopener, hclosed, hcalls⟩
    exact identifier_of_mem_openings hnamed (mem_openings_of_opener? hopener)

/-- In the artifacts that a recording session exports, if they are loaded, the units of a source are those that were
recorded in its first opening, and nothing is found for a source without an entry. -/
theorem unitsFor_exported (hnamed : ∀ act ∈ acts, act.Named) {artifacts : Artifacts}
    (h : artifacts ∈ exports (recording.history acts)) {store : Store}
    (hstore : Store.ofArtifacts artifacts = .ok store) (file : FileId) :
    if file ∈ artifacts.registry.files.map Prod.fst then
      ∃ id units, opener? (recording.history acts) file = some id ∧ id ∈ closings (recording.history acts) ∧
        calls (recording.history acts) id ≠ [] ∧ store.unitsFor file = .ok units ∧
          List.Forall₂ RecordedUnit.LoadedAs (Exchange.units (recording.history acts) id file) units
    else store.unitsFor file = .ok [] := by
  obtain ⟨files, hnodup, rfl, hfiles⟩ := exists_sources hnamed h
  have hvalid : ∀ f ∈ files.map (source (recording.history acts)), f.Valid :=
    RecordedFile.valid_of_load (List.forall_mem_map.2 fun file hfile => (hfiles file hfile).1) hstore
  have hdistinct : ((files.map (source (recording.history acts))).map (·.file)).Nodup := by
    rw [List.map_map]
    exact (List.map_id files).symm ▸ hnodup
  -- The sources with an entry are those of the batches.
  have hkeys : file ∈ (RecordedFile.artifacts (files.map (source (recording.history acts)))).registry.files.map
      Prod.fst ↔ file ∈ files := by
    rw [RecordedFile.artifacts, (Artifacts.laidOut_ofBatches _).keys.2, List.map_map, List.map_map]
    exact (List.map_id files).symm ▸ Iff.rfl
  simp only [hkeys]
  split
  · rename_i hfile
    obtain ⟨-, id, hopener, hclosed, hcalls⟩ := hfiles file hfile
    obtain ⟨units, hunits, hloaded⟩ :=
      RecordedFile.unitsFor_load hvalid hdistinct hstore (List.mem_map_of_mem hfile)
    refine ⟨id, units, hopener, hclosed, hcalls, hunits, ?_⟩
    simpa only [source, hopener, Option.getD_some] using hloaded
  · rename_i hfile
    refine RecordedFile.unitsFor_of_notMem hstore (List.forall_mem_map.2 fun other hother heq => hfile ?_)
    exact heq ▸ hother

/-- A source whose first opening was closed with a unit has an entry in what was exported, or is kept for the next
export. -/
theorem exported_or_kept {file : FileId} {id : Nat} (hopener : opener? (recording.history acts) file = some id)
    (hclosed : id ∈ closings (recording.history acts)) (hcalls : calls (recording.history acts) id ≠ []) :
    (∃ artifacts ∈ exports (recording.history acts), file ∈ artifacts.registry.files.map Prod.fst) ∨
      file ∈ (recording.after acts).batches.map (·.file) := by
  obtain ⟨drained, hexports, hbatches, -⟩ := (tracks_history acts).exists_drained
  -- The opening left a batch, and a batch is in one of the exports or still with the session.
  obtain ⟨batch, hbatch, rfl⟩ := exists_batchOf? (fileOf?_of_opener? hopener) hopener hcalls
  have hmem : batch ∈ drained.flatten ++ (recording.after acts).batches := by
    rw [hbatches]
    exact List.mem_filterMap.2 ⟨id, hclosed, hbatch⟩
  refine (List.mem_append.1 hmem).imp (fun hdrained => ?_) List.mem_map_of_mem
  obtain ⟨batches, hleft, hmem⟩ := List.mem_flatten.1 hdrained
  refine ⟨Artifacts.ofBatches batches, hexports ▸ List.mem_map_of_mem hleft, ?_⟩
  exact ((Artifacts.laidOut_ofBatches batches).keys.2 _).2 (List.mem_map_of_mem hmem)

end Session

namespace Artifacts

open Exchange Session

/-- Artifacts keep every unit. The layout of any batches holds each of them at its place. A source whose first opening
was closed with a unit is in what a recording session exports, or stays for its next export. If all names are spelled
like words and what was exported is loaded, it gives the units of a source as they were recorded and in that order, and
none for a source without an entry. -/
theorem keeps_units :
    (∀ batches, LaidOut batches (ofBatches batches)) ∧
      ∀ acts : List Act,
        (∀ file id, opener? (recording.history acts) file = some id → id ∈ closings (recording.history acts) →
          calls (recording.history acts) id ≠ [] →
            (∃ artifacts ∈ exports (recording.history acts), file ∈ artifacts.registry.files.map Prod.fst) ∨
              file ∈ (recording.after acts).batches.map (·.file)) ∧
        ((∀ act ∈ acts, act.Named) → ∀ artifacts ∈ exports (recording.history acts), ∀ store,
          Store.ofArtifacts artifacts = .ok store → ∀ file,
            if file ∈ artifacts.registry.files.map Prod.fst then
              ∃ id units, opener? (recording.history acts) file = some id ∧
                id ∈ closings (recording.history acts) ∧ calls (recording.history acts) id ≠ [] ∧
                store.unitsFor file = .ok units ∧
                List.Forall₂ RecordedUnit.LoadedAs (Exchange.units (recording.history acts) id file) units
            else store.unitsFor file = .ok []) :=
  ⟨laidOut_ofBatches, fun _ => ⟨fun _ _ => exported_or_kept,
    fun hnamed _ hartifacts _ hstore => unitsFor_exported hnamed hartifacts hstore⟩⟩

theorem map_of_loadedAs {us : List (RecordedUnit × List Line)} {units : List BakedUnit}
    (h : List.Forall₂ RecordedUnit.LoadedAs us units) :
    units.map (fun unit => (unit.name, unit.signature)) = us.map fun u => (u.1.name, u.1.signature) := by
  induction h with
  | nil => rfl
  | cons hloaded _ ih => rw [List.map_cons, List.map_cons, hloaded.name, hloaded.signature, ih]

/-- A session in which one number is compiled for a source. -/
def numbered (file : FileId) : List Act := [.push file, .compile (.const (.int 1)) ⟨[], .int, []⟩, .pop 0]

/-- What such a source contributes. -/
def numberedBatch (file : FileId) : Batch :=
  ⟨file, ["// Fn() -> Int\nfn " ++ Recording.unitName file 0 ++ "() \x7b\n    return 1;\n\x7d"],
    [⟨Recording.unitName file 0, ⟨[], .int⟩⟩]⟩

/-- An export of a session that has exported nothing before. -/
theorem exports_concat_export {acts : List Act} {batches : List Batch} (hstack : (recording.after acts).stack = [])
    (hbatches : (recording.after acts).batches = batches) (hnone : exports (recording.history acts) = []) :
    exports (recording.history (acts ++ [.export])) = [ofBatches batches] := by
  have hmode : (recording.after acts).mode = .record := mode_after recording acts
  rw [history_concat, exports_concat, hnone, Session.step, perform_export hmode hstack, hbatches]
  rfl

theorem exports_numbered {file : FileId} (h : file = ⟨"A"⟩ ∨ file = ⟨" A"⟩) :
    exports (recording.history (numbered file ++ [.export])) = [ofBatches [numberedBatch file]] := by
  rcases h with rfl | rfl
  · exact exports_concat_export rfl (by decide +kernel) rfl
  · exact exports_concat_export rfl (by decide +kernel) rfl

/-- It is loaded if its chunk can be read. -/
theorem ofArtifacts_numbered {file : FileId} {chunk : Chunk}
    (hload : load? (chunkText (numberedBatch file).definitions) = some chunk) :
    Store.ofArtifacts (ofBatches [numberedBatch file]) =
      .ok ⟨(ofBatches [numberedBatch file]).registry, [(chunkFile 0, chunk)]⟩ := by
  have hne : (numberedBatch file).definitions ≠ [] := List.cons_ne_nil _ _
  have hroom : (numberedBatch file).definitions.length ≤ chunkSize := Nat.le_of_ble_eq_true rfl
  have hchunks : (ofBatches [numberedBatch file]).chunks = [chunkText (numberedBatch file).definitions] := by
    have hdefinitions : ([numberedBatch file].flatMap fun b => (paired b).map (·.1)) =
        (numberedBatch file).definitions := rfl
    rw [ofBatches, hdefinitions, pieces_of_length_le hne hroom, List.map_singleton]
  refine ofArtifacts_eq_ok_iff.2 ⟨rfl, Store.readChunks_eq_ok_iff.2 ?_⟩
  rw [sources, hchunks, Store.sortSources, List.mapIdx_singleton, List.mergeSort_singleton]
  exact .cons ⟨rfl, hload⟩ .nil

set_option maxRecDepth 10000 in
/-- The chunk of a source that is named like a word. -/
theorem load?_numbered : (load? (chunkText (numberedBatch ⟨"A"⟩).definitions)).isSome = true := by
  cbv

/-- A session with one source, whose unit is found. -/
theorem keeps_units_numbered :
    ∃ artifacts store units, exports (recording.history (numbered ⟨"A"⟩ ++ [.export])) = [artifacts] ∧
      artifacts.chunks.length = 1 ∧ Store.ofArtifacts artifacts = .ok store ∧
      store.unitsFor ⟨"A"⟩ = .ok units ∧ units.map (fun unit => (unit.name, unit.signature)) = [("A_0", ⟨[], .int⟩)] ∧
      store.unitsFor ⟨"B"⟩ = .ok [] := by
  have hexports := exports_numbered (.inl rfl)
  obtain ⟨chunk, hload⟩ := Option.isSome_iff_exists.1 load?_numbered
  have hstore := ofArtifacts_numbered hload
  have hnamed : ∀ act ∈ numbered ⟨"A"⟩ ++ [.export], act.Named := by
    refine List.forall_mem_cons.2 ⟨⟨⟨'A', [], rfl, by decide⟩, List.forall_mem_singleton.2 (by decide)⟩, ?_⟩
    refine List.forall_mem_cons.2 ⟨⟨List.forall_mem_nil _, List.forall_mem_nil _⟩, ?_⟩
    exact List.forall_mem_cons.2 ⟨trivial, List.forall_mem_singleton.2 trivial⟩
  have hfound := (keeps_units.2 _).2 hnamed _ (by rw [hexports]; exact List.mem_singleton_self _) _ hstore
  have hkeys : (ofBatches [numberedBatch ⟨"A"⟩]).registry.files.map Prod.fst = [⟨"A"⟩] := rfl
  have hA := hfound ⟨"A"⟩
  have hB := hfound ⟨"B"⟩
  rw [hkeys, if_pos (List.mem_singleton_self _)] at hA
  rw [hkeys, if_neg (by decide)] at hB
  obtain ⟨id, units, hopener, -, -, hunits, hloaded⟩ := hA
  obtain rfl : (0 : Nat) = id := Option.some.inj hopener
  refine ⟨_, _, units, hexports, (keeps_units.1 _).count, hstore, hunits, ?_, hB⟩
  rw [map_of_loadedAs hloaded]
  decide +kernel

set_option maxRecDepth 10000 in
/-- The chunk of a source whose name opens with a blank. -/
theorem load?_blank : (load? (chunkText (numberedBatch ⟨" A"⟩).definitions)).map (fun c => c.defines " A_0") =
    some false := by
  cbv

/-- If a source is named like a word behind a blank, its function is written under a name with a blank, and is read
as one without. It is loaded, and not found. -/
theorem keeps_units_fails :
    ∃ artifacts store, exports (recording.history (numbered ⟨" A"⟩ ++ [.export])) = [artifacts] ∧
      Store.ofArtifacts artifacts = .ok store ∧ ⟨" A"⟩ ∈ artifacts.registry.files.map Prod.fst ∧
      store.unitsFor ⟨" A"⟩ = .error (.missingUnit ⟨" A"⟩ " A_0" "generated_0.rhai") := by
  obtain ⟨chunk, hload, hdefines⟩ := Option.map_eq_some_iff.1 load?_blank
  have hstore := ofArtifacts_numbered hload
  have hentry : (ofBatches [numberedBatch ⟨" A"⟩]).registry.units? ⟨" A"⟩ =
      some [⟨" A_0", chunkFile 0, ⟨[], .int⟩⟩] := by
    decide +kernel
  refine ⟨_, _, exports_numbered (.inr rfl), hstore, List.mem_singleton_self _, ?_⟩
  have hfile : chunkFile 0 = "generated_0.rhai" := by decide +kernel
  simp [Store.unitsFor, hentry, Store.unitAt, hdefines, hfile]

end Artifacts

end Barrage
