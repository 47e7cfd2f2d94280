import Barrage.Bake.Store
import Barrage.Proofs.Bake.UnitCalls

/-!
# Loading recorded units

Recorded units fill the chunks in the order of their sources, and the registry says of every unit which
chunk holds it. If every source is recorded once, what is loaded are the units that were recorded: they
come in the order of recording, under the names and signatures they were recorded with, and each with the
chunk that holds its function. Nothing but the levels of a line can keep the artifacts from being loaded.

## Main definitions

* `RecordedFile` — the units of a source with their lines
* `RecordedFile.Valid` — units that are named by their places and made of lines
* `RecordedUnit.LoadedAs` — what a recorded unit is loaded as

## Main results

* `Registry.lookup_register` — the entry of a source
* `Artifacts.getElem?_pieces` — the chunk of a unit
* `RecordedFile.exists_load_iff` — when artifacts can be loaded
* `RecordedFile.unitsFor_load` — the units of a source are those that were recorded
-/

/-- Doing something with every entry of a list gives a result if it gives one for each of them. -/
theorem List.mapM_eq_ok_iff {ε α β : Type} {f : α → Except ε β} {as : List α} {bs : List β} :
    as.mapM f = .ok bs ↔ List.Forall₂ (fun a b => f a = .ok b) as bs := by
  induction as generalizing bs with
  | nil =>
    rw [List.mapM_nil, List.forall₂_nil_left_iff]
    exact ⟨fun h => by cases h; rfl, fun h => by rw [h]; rfl⟩
  | cons a as ih =>
    simp only [List.mapM_cons, Except.bind_eq_ok_iff, ih]
    constructor
    · rintro ⟨b, hb, bs', hbs, h⟩
      cases h
      exact .cons hb hbs
    · rintro (_ | ⟨hb, hbs⟩)
      exact ⟨_, hb, _, hbs, rfl⟩

namespace Barrage

open Chunk

/-! ### The registry -/

namespace Registry

variable {file other : FileId} {files : List (FileId × List UnitRef)}

theorem lookup_alter_self (f : List UnitRef → List UnitRef) (h : files.lookup file = none) :
    (alter file f files).lookup file = some (f []) := by
  induction files with
  | nil => simp [alter]
  | cons entry files ih =>
    obtain ⟨known, refs⟩ := entry
    rw [List.lookup_cons] at h
    split at h
    · cases h
    · rename_i hne
      have hne' : file ≠ known := by simpa using hne
      rw [alter, if_neg hne']
      split
      · exact List.lookup_cons_self
      · rw [List.lookup_cons, hne]
        exact ih h

theorem lookup_alter_of_ne (f : List UnitRef → List UnitRef) (h : other ≠ file) :
    (alter file f files).lookup other = files.lookup other := by
  have hself : (other == file) = false := by simpa using h
  induction files with
  | nil => simp [alter, List.lookup_cons, hself]
  | cons entry files ih =>
    obtain ⟨known, refs⟩ := entry
    rw [alter]
    split
    · rename_i heq
      subst heq
      simp [List.lookup_cons, hself]
    · split
      · rw [List.lookup_cons, hself]
      · rw [List.lookup_cons, List.lookup_cons, ih]

end Registry

namespace Artifacts

variable {α : Type}

/-- The pieces of a list, one by one. -/
theorem getElem?_pieces {size : Nat} (hsize : 0 < size) (l : List α) (k : Nat) :
    (pieces size l)[k]? = if k * size < l.length then some ((l.drop (k * size)).take size) else none := by
  induction k generalizing l with
  | zero =>
    rw [pieces]
    split
    · rename_i hempty
      have hl : l = [] := by simpa [Nat.ne_of_gt hsize] using hempty
      simp [hl]
    · rename_i hne
      have hpos : 0 < l.length := List.length_pos_iff.2 fun h => hne (by simp [h])
      simp [hpos]
  | succ k ih =>
    rw [pieces]
    split
    · rename_i hempty
      have hl : l = [] := by simpa [Nat.ne_of_gt hsize] using hempty
      simp [hl]
    · have hsucc : (k + 1) * size = size + k * size := by rw [Nat.add_one_mul, Nat.add_comm]
      rw [List.getElem?_cons_succ, ih, List.length_drop, List.drop_drop, hsucc]
      by_cases h : size + k * size < l.length
      · rw [if_pos h, if_pos (by omega)]
      · rw [if_neg h, if_neg (by omega)]

/-- The piece that an entry is in. -/
theorem exists_piece {size : Nat} (hsize : 0 < size) {l : List α} {n : Nat} {a : α}
    (h : l[n]? = some a) :
    ∃ piece, (pieces size l)[n / size]? = some piece ∧ a ∈ piece := by
  obtain ⟨hn, ha⟩ := List.getElem?_eq_some_iff.1 h
  have hdiv : n / size * size + n % size = n := by rw [Nat.mul_comm]; exact Nat.div_add_mod n size
  have hmod : n % size < size := Nat.mod_lt n hsize
  refine ⟨(l.drop (n / size * size)).take size, ?_, ?_⟩
  · rw [getElem?_pieces hsize, if_pos (by omega)]
  · rw [List.mem_iff_getElem?]
    refine ⟨n % size, ?_⟩
    rw [List.getElem?_take, if_pos hmod, List.getElem?_drop, hdiv, h]

/-- Every entry of a piece is one of the list. -/
theorem mem_of_mem_pieces {size : Nat} (hsize : 0 < size) {l piece : List α} (h : piece ∈ pieces size l) :
    List.Sublist piece l := by
  obtain ⟨k, hk⟩ := List.mem_iff_getElem?.1 h
  rw [getElem?_pieces hsize] at hk
  split at hk
  · cases hk
    exact (List.take_sublist _ _).trans (List.drop_sublist _ _)
  · cases hk

/-- A list that is not too long is one piece. -/
theorem pieces_of_length_le {size : Nat} {l : List α} (hl : l ≠ []) (h : l.length ≤ size) :
    pieces size l = [l] := by
  have hpos : 0 < l.length := List.length_pos_iff.2 hl
  rw [pieces, dif_neg (by simp [hl]; omega), List.take_of_length_le h, List.drop_of_length_le h, pieces,
    dif_pos (.inl rfl)]

theorem map_pieces {β : Type} (f : α → β) {size : Nat} (hsize : 0 < size) (l : List α) :
    pieces size (l.map f) = (pieces size l).map (List.map f) := by
  refine List.ext_getElem? fun k => ?_
  rw [List.getElem?_map, getElem?_pieces hsize, getElem?_pieces hsize, List.length_map]
  split
  · simp
  · rfl

variable {batches : List Batch} {file : FileId} {files : List (FileId × List UnitRef)} {written : Nat}

/-- The entry of a source stays when others are registered. -/
theorem lookup_register_of_notMem (h : ∀ b ∈ batches, b.file ≠ file) :
    (register written batches files).lookup file = files.lookup file := by
  induction batches generalizing written files with
  | nil => rfl
  | cons b batches ih =>
    obtain ⟨hb, hrest⟩ := List.forall_mem_cons.1 h
    rw [register, ih hrest, Registry.lookup_alter_of_ne _ hb.symm]

/-- The entry of a source lists its units, each with the chunk that its place leads to. -/
theorem lookup_register {before after : List Batch} {batch : Batch}
    (hnodup : ((before ++ batch :: after).map (·.file)).Nodup) (hnew : files.lookup batch.file = none) :
    (register written (before ++ batch :: after) files).lookup batch.file =
      some ((paired batch).mapIdx fun i p =>
        placed (written + (before.flatMap paired).length + i) p.2) := by
  induction before generalizing written files with
  | nil =>
    rw [List.nil_append, List.map_cons, List.nodup_cons] at hnodup
    have hafter : ∀ b ∈ after, b.file ≠ batch.file := by
      intro b hb heq
      exact hnodup.1 (List.mem_map.2 ⟨b, hb, heq⟩)
    rw [List.nil_append, register, lookup_register_of_notMem hafter, Registry.lookup_alter_self _ hnew]
    simp
  | cons b before ih =>
    rw [List.cons_append, List.map_cons, List.nodup_cons] at hnodup
    have hb : batch.file ≠ b.file := by
      intro heq
      exact hnodup.1 (List.mem_map.2 ⟨batch, by simp, heq⟩)
    rw [List.cons_append, register, ih hnodup.2 (by rw [Registry.lookup_alter_of_ne _ hb, hnew])]
    simp [Nat.add_assoc]

end Artifacts

/-! ### Chunks -/

namespace Store

variable {sources : List (String × String)} {chunks : List (String × Chunk)}

/-- Reading one chunk text, under the name of its file. -/
def readChunk (source : String × String) : Except BakeError (String × Chunk) :=
  match Chunk.load? source.2 with
  | some chunk => .ok (source.1, chunk)
  | none => .error (.chunk source.1)

theorem readChunks_eq_ok_iff :
    readChunks sources = .ok chunks ↔
      List.Forall₂ (fun s c => c.1 = s.1 ∧ Chunk.load? s.2 = some c.2) (sortSources sources) chunks := by
  have hread : readChunks sources = (sortSources sources).mapM readChunk := rfl
  rw [hread, List.mapM_eq_ok_iff]
  have hiff : ∀ s c, readChunk s = .ok c ↔ c.1 = s.1 ∧ Chunk.load? s.2 = some c.2 := by
    rintro ⟨name, text⟩ ⟨name', chunk⟩
    unfold readChunk
    cases hload : Chunk.load? text with
    | none => simp
    | some c => simp [Prod.ext_iff, eq_comm]
  simp only [hiff]

theorem mem_sortSources (sources : List (String × String)) (s : String × String) :
    s ∈ sortSources sources ↔ s ∈ sources :=
  (List.mergeSort_perm _ _).mem_iff

/-- Chunk texts can be read if each of them can be. -/
theorem exists_readChunks_iff :
    (∃ chunks, readChunks sources = .ok chunks) ↔ ∀ s ∈ sources, (Chunk.load? s.2).isSome = true := by
  simp only [readChunks_eq_ok_iff]
  constructor
  · rintro ⟨chunks, h⟩ s hs
    obtain ⟨c, -, -, hload⟩ := h.exists_of_mem_left ((mem_sortSources sources s).2 hs)
    simp [hload]
  · intro h
    have h' : ∀ s ∈ sortSources sources, (Chunk.load? s.2).isSome = true :=
      fun s hs => h s ((mem_sortSources sources s).1 hs)
    generalize sortSources sources = sorted at h'
    induction sorted with
    | nil => exact ⟨[], .nil⟩
    | cons s sorted ih =>
      obtain ⟨hs, hrest⟩ := List.forall_mem_cons.1 h'
      obtain ⟨chunk, hchunk⟩ := Option.isSome_iff_exists.1 hs
      obtain ⟨chunks, hchunks⟩ := ih hrest
      exact ⟨(s.1, chunk) :: chunks, .cons ⟨rfl, hchunk⟩ hchunks⟩

/-- A chunk is found under the name of its file. -/
theorem lookup_readChunks (h : readChunks sources = .ok chunks) (hnodup : (sources.map Prod.fst).Nodup)
    {name text : String} (hmem : (name, text) ∈ sources) :
    ∃ chunk, Chunk.load? text = some chunk ∧ chunks.lookup name = some chunk := by
  have hread := readChunks_eq_ok_iff.1 h
  have hnames : chunks.map Prod.fst = (sortSources sources).map Prod.fst := by
    have hforall : List.Forall₂ (fun s c => s.1 = c.1) (sortSources sources) chunks :=
      hread.imp fun _ _ hsc => hsc.1.symm
    exact (List.forall₂_eq_eq_eq ▸ List.forall₂_map_left_iff.2 (List.forall₂_map_right_iff.2 hforall) :
      (sortSources sources).map Prod.fst = chunks.map Prod.fst).symm
  have hdistinct : (chunks.map Prod.fst).Nodup := by
    rw [hnames]
    exact ((List.mergeSort_perm sources _).map Prod.fst).nodup_iff.2 hnodup
  obtain ⟨⟨name', chunk⟩, hc, hname, hload⟩ :=
    hread.exists_of_mem_left ((mem_sortSources sources (name, text)).2 hmem)
  obtain rfl : name' = name := hname
  exact ⟨chunk, hload, Expr.lookup_of_mem hdistinct hc⟩

end Store

namespace Artifacts

theorem toList_chunkFile (index : Nat) :
    (chunkFile index).toList = chunkStem.toList ++ (Nat.toDigits 10 index ++ ".rhai".toList) := by
  simp [chunkFile, chunkExtension, toString]

theorem chunkFile_injective {i j : Nat} (h : chunkFile i = chunkFile j) : i = j := by
  have hlist := congrArg String.toList h
  rw [toList_chunkFile, toList_chunkFile, List.append_cancel_left_eq, List.append_cancel_right_eq] at hlist
  exact toDigits_injective hlist

/-- The texts of the chunks under the names of their files. -/
def sources (artifacts : Artifacts) : List (String × String) :=
  artifacts.chunks.mapIdx fun index text => (chunkFile index, text)

theorem ofArtifacts_eq_ok_iff {artifacts : Artifacts} {store : Store} :
    Store.ofArtifacts artifacts = .ok store ↔
      store.registry = artifacts.registry ∧ Store.readChunks artifacts.sources = .ok store.chunks := by
  have hof : Store.ofArtifacts artifacts =
      Store.readChunks artifacts.sources >>= fun chunks => .ok ⟨artifacts.registry, chunks⟩ := rfl
  rw [hof, Except.bind_eq_ok_iff]
  constructor
  · rintro ⟨chunks, hchunks, h⟩
    cases h
    exact ⟨rfl, hchunks⟩
  · rintro ⟨hregistry, hchunks⟩
    exact ⟨store.chunks, hchunks, by rw [← hregistry]⟩

theorem nodup_sources (artifacts : Artifacts) : (artifacts.sources.map Prod.fst).Nodup := by
  rw [sources, List.Nodup, List.pairwise_iff_getElem]
  intro i j hi hj hij heq
  simp only [List.getElem_map, List.getElem_mapIdx] at heq
  have := chunkFile_injective heq
  omega

end Artifacts

/-! ### Recorded sources -/

/-- The units of a source, each with the lines of its body. -/
structure RecordedFile where
  file : FileId
  units : List (RecordedUnit × List Line)

namespace RecordedFile

/-- What a source contributes to the artifacts. -/
def batch (f : RecordedFile) : Batch :=
  ⟨f.file, f.units.map fun u => u.1.definition, f.units.map fun u => ⟨u.1.name, u.1.signature⟩⟩

/-- A unit as a function and a reference. -/
def entry (u : RecordedUnit × List Line) : String × TypedRef :=
  (u.1.definition, ⟨u.1.name, u.1.signature⟩)

theorem paired_batch (f : RecordedFile) : Artifacts.paired f.batch = f.units.map entry := by
  rw [Artifacts.paired, batch, List.zip_map']
  rfl

/-- Lines that end by giving a value and bind names before. -/
def IsBody (ls : List Line) : Prop :=
  ∃ binds value, ls = binds ++ [.give value] ∧ ∀ l ∈ binds, l.isBind = true

/-- Units that are named by their places and made of lines. -/
structure Valid (f : RecordedFile) : Prop where
  named : ∀ i u, f.units[i]? = some u → u.1.name = Recording.unitName f.file i
  lines : ∀ u ∈ f.units, u.1.HasLines u.2
  body : ∀ u ∈ f.units, IsBody u.2

end RecordedFile

namespace Recording

theorem toList_unitName (file : FileId) (index : Nat) :
    (unitName file index).toList = file.text.toList ++ '_' :: Nat.toDigits 10 index := by
  simp [unitName, toString]

/-- The name of a unit tells its source and its place. -/
theorem unitName_injective {file file' : FileId} {i j : Nat} (h : unitName file i = unitName file' j) :
    file = file' ∧ i = j := by
  have hlist := congrArg (fun s => s.toList.reverse) h
  simp only [toList_unitName] at hlist
  have hbefore := congrArg (List.dropWhile Char.isDigit) hlist
  have hnumber := congrArg (List.takeWhile Char.isDigit) hlist
  rw [dropWhile_reverse_append_toDigits (by decide), dropWhile_reverse_append_toDigits (by decide),
    List.cons.injEq, List.reverse_inj] at hbefore
  rw [takeWhile_reverse_append_toDigits (by decide), takeWhile_reverse_append_toDigits (by decide),
    List.reverse_inj] at hnumber
  refine ⟨?_, toDigits_injective hnumber⟩
  cases file
  cases file'
  exact congrArg FileId.mk (String.toList_inj.1 hbefore.2)

/-- Units are not named like what they call. -/
theorem unitName_notMem_called (file : FileId) (index : Nat) :
    unitName file index ∉ calledFunctions := by
  have hcalled : ∀ name ∈ calledFunctions,
      (name.toList.reverse.dropWhile Char.isDigit).head? ≠ some '_' := by
    decide
  intro hmem
  have hhead := hcalled _ hmem
  rw [toList_unitName, dropWhile_reverse_append_toDigits (by decide)] at hhead
  exact hhead rfl

end Recording

/-- The function that a recorded unit is loaded as. -/
def RecordedUnit.function (unit : RecordedUnit) (ls : List Line) : Definition :=
  ⟨unit.name, unit.params.map (·.name), ls.map Line.simplified⟩

/-- What a recorded unit is loaded as: a unit of the same name and signature, in a chunk that holds its
function. -/
structure RecordedUnit.LoadedAs (u : RecordedUnit × List Line) (unit : BakedUnit) : Prop where
  name : unit.name = u.1.name
  signature : unit.signature = u.1.signature
  found : unit.chunk.find? u.1.name u.1.params.length = some (u.1.function u.2)
  keeps : unit.chunk.Keeps

namespace Chunk

/-- A function is found under its name if no other one has the name. -/
theorem find?_of_mem {chunk : Chunk} {f : Definition}
    (hnodup : (chunk.definitions.map (·.name)).Nodup) (h : f ∈ chunk.definitions) :
    chunk.find? f.name f.params.length = some f := by
  unfold find?
  obtain ⟨definitions, main⟩ := chunk
  induction definitions with
  | nil => cases h
  | cons g gs ih =>
    rw [List.map_cons, List.nodup_cons] at hnodup
    rcases List.mem_cons.1 h with rfl | hmem
    · exact List.find?_cons_of_pos (by simp)
    · have hne : g.name ≠ f.name := fun heq => hnodup.1 (List.mem_map.2 ⟨f, hmem, heq.symm⟩)
      rw [List.find?_cons_of_neg (by simp [hne])]
      exact ih hnodup.2 hmem

/-- A chunk of units is loaded as their functions if all of them fit. -/
theorem load?_chunkText {us : List (RecordedUnit × List Line)} (hlines : ∀ u ∈ us, u.1.HasLines u.2)
    (hbody : ∀ u ∈ us, RecordedFile.IsBody u.2) (hnodup : (us.map fun u => u.1.name).Nodup) :
    load? (Artifacts.chunkText (us.map fun u => u.1.definition)) =
      if ∀ u ∈ us, (u.1.printed u.2).Fits then some ⟨us.map fun u => u.1.function u.2, []⟩ else none := by
  have hdistinct : (us.map fun u => (u.1.name, u.1.params.length)).Nodup := by
    refine List.Nodup.of_map Prod.fst ?_
    rw [List.map_map]
    exact hnodup
  rw [load?, Artifacts.parse?_chunkText hlines hdistinct]
  by_cases hfits : ∀ u ∈ us, (u.1.printed u.2).Fits
  · rw [if_pos hfits, if_pos hfits, Option.map_some, simplify, List.map_map]
    have hfunctions : us.map (Definition.simplify ∘ fun u => (u.1.printed u.2).definition) =
        us.map fun u => u.1.function u.2 := by
      refine List.map_congr_left fun u hu => ?_
      obtain ⟨binds, value, hu, hbinds⟩ := hbody u hu
      exact Printed.simplify_definition hu hbinds
    rw [hfunctions]
    rfl
  · rw [if_neg hfits, if_neg hfits]
    rfl

/-- Chunks of units keep to units. -/
theorem keeps_of_units {us : List (RecordedUnit × List Line)}
    (h : ∀ u ∈ us, u.1.name ∉ calledFunctions) : Keeps ⟨us.map fun u => u.1.function u.2, []⟩ := by
  refine ⟨rfl, fun name hname count => ?_⟩
  unfold find?
  rw [List.find?_eq_none]
  intro f hf
  obtain ⟨u, hu, rfl⟩ := List.mem_map.1 hf
  have hne : u.1.name ≠ name := by
    rintro rfl
    exact h u hu hname
  simp [RecordedUnit.function, hne]

end Chunk

namespace RecordedFile

variable {fs : List RecordedFile} (hvalid : ∀ f ∈ fs, f.Valid) (hfiles : (fs.map (·.file)).Nodup)

/-- The artifacts of recorded sources. -/
def artifacts (fs : List RecordedFile) : Artifacts := Artifacts.ofBatches (fs.map batch)

/-- All units in the order of recording. -/
def allUnits (fs : List RecordedFile) : List (RecordedUnit × List Line) := fs.flatMap (·.units)

theorem chunks_artifacts (fs : List RecordedFile) :
    (artifacts fs).chunks = (Artifacts.pieces Artifacts.chunkSize (allUnits fs)).map fun us =>
      Artifacts.chunkText (us.map fun u => u.1.definition) := by
  have hdefinitions : ((fs.map batch).flatMap fun b => (Artifacts.paired b).map (·.1)) =
      (allUnits fs).map fun u => u.1.definition := by
    rw [allUnits, List.flatMap_map, List.map_flatMap]
    refine List.flatMap_congr fun f _ => ?_
    rw [paired_batch, List.map_map]
    rfl
  have hsize : 0 < Artifacts.chunkSize := by decide
  change (Artifacts.pieces Artifacts.chunkSize _).map Artifacts.chunkText = _
  rw [hdefinitions, Artifacts.map_pieces _ hsize, List.map_map]
  rfl

include hvalid in
theorem forall_mem_allUnits {P : RecordedUnit × List Line → Prop}
    (h : ∀ f : RecordedFile, f.Valid → ∀ u ∈ f.units, P u) : ∀ u ∈ allUnits fs, P u := by
  intro u hu
  obtain ⟨f, hf, hu⟩ := List.mem_flatMap.1 hu
  exact h f (hvalid f hf) u hu

include hvalid in
theorem notMem_called : ∀ u ∈ allUnits fs, u.1.name ∉ calledFunctions :=
  forall_mem_allUnits hvalid fun f hf u hu => by
    obtain ⟨i, hi⟩ := List.mem_iff_getElem?.1 hu
    rw [hf.named i u hi]
    exact Recording.unitName_notMem_called _ _

theorem Valid.nodup_names {f : RecordedFile} (h : f.Valid) : (f.units.map fun u => u.1.name).Nodup := by
  rw [List.Nodup, List.pairwise_iff_getElem]
  intro i j hi hj hij heq
  rw [List.length_map] at hi hj
  rw [List.getElem_map, List.getElem_map, h.named i _ (List.getElem?_eq_getElem hi),
    h.named j _ (List.getElem?_eq_getElem hj)] at heq
  have := (Recording.unitName_injective heq).2
  omega

include hvalid hfiles in
/-- All units have different names. -/
theorem nodup_allUnits : ((allUnits fs).map fun u => u.1.name).Nodup := by
  induction fs with
  | nil => exact List.nodup_nil
  | cons f fs ih =>
    obtain ⟨hf, hrest⟩ := List.forall_mem_cons.1 hvalid
    rw [List.map_cons, List.nodup_cons] at hfiles
    rw [allUnits, List.flatMap_cons, List.map_append, List.nodup_append]
    refine ⟨hf.nodup_names, ih hrest hfiles.2, ?_⟩
    rintro _ hfirst _ hlater rfl
    obtain ⟨u, hu, hname⟩ := List.mem_map.1 hfirst
    obtain ⟨v, hv, hname'⟩ := List.mem_map.1 hlater
    obtain ⟨g, hg, hv⟩ := List.mem_flatMap.1 hv
    obtain ⟨i, hi⟩ := List.mem_iff_getElem?.1 hu
    obtain ⟨j, hj⟩ := List.mem_iff_getElem?.1 hv
    rw [hf.named i u hi] at hname
    rw [(hrest g hg).named j v hj] at hname'
    have hsame := (Recording.unitName_injective (hname.trans hname'.symm)).1
    exact hfiles.1 (List.mem_map.2 ⟨g, hg, hsame.symm⟩)

include hvalid hfiles in
/-- A chunk of the artifacts is loaded as the functions of its units if all of them fit. -/
theorem load?_piece {us : List (RecordedUnit × List Line)}
    (hus : us ∈ Artifacts.pieces Artifacts.chunkSize (allUnits fs)) :
    load? (Artifacts.chunkText (us.map fun u => u.1.definition)) =
      if ∀ u ∈ us, (u.1.printed u.2).Fits then some ⟨us.map fun u => u.1.function u.2, []⟩ else none := by
  have hsub := Artifacts.mem_of_mem_pieces (by decide) hus
  refine load?_chunkText (fun u hu => ?_) (fun u hu => ?_) ?_
  · exact forall_mem_allUnits hvalid (fun f hf u hu => hf.lines u hu) u (hsub.subset hu)
  · exact forall_mem_allUnits hvalid (fun f hf u hu => hf.body u hu) u (hsub.subset hu)
  · exact (nodup_allUnits hvalid hfiles).sublist (hsub.map _)

/-- The chunk texts of artifacts, with the names of their files. -/
theorem mem_sources_iff {s : String × String} :
    s ∈ (artifacts fs).sources ↔ ∃ k us,
      (Artifacts.pieces Artifacts.chunkSize (allUnits fs))[k]? = some us ∧
        s = (Artifacts.chunkFile k, Artifacts.chunkText (us.map fun u => u.1.definition)) := by
  rw [Artifacts.sources, List.mem_iff_getElem?]
  simp only [List.getElem?_mapIdx, chunks_artifacts, List.getElem?_map, Option.map_map,
    Option.map_eq_some_iff]
  exact ⟨fun ⟨k, us, hus, hs⟩ => ⟨k, us, hus, hs.symm⟩, fun ⟨k, us, hus, hs⟩ => ⟨k, us, hus, hs.symm⟩⟩

include hvalid hfiles in
/-- Artifacts can be loaded exactly if no unit nests too deeply. -/
theorem exists_load_iff :
    (∃ store, Store.ofArtifacts (artifacts fs) = .ok store) ↔
      ∀ f ∈ fs, ∀ u ∈ f.units, (u.1.printed u.2).Fits := by
  have hstore : (∃ store, Store.ofArtifacts (artifacts fs) = .ok store) ↔
      ∃ chunks, Store.readChunks (artifacts fs).sources = .ok chunks := by
    simp only [Artifacts.ofArtifacts_eq_ok_iff]
    exact ⟨fun ⟨store, _, h⟩ => ⟨_, h⟩, fun ⟨chunks, h⟩ => ⟨⟨_, chunks⟩, rfl, h⟩⟩
  rw [hstore, Store.exists_readChunks_iff]
  constructor
  · intro h f hf u hu
    have hmem : u ∈ allUnits fs := List.mem_flatMap.2 ⟨f, hf, hu⟩
    obtain ⟨n, hn⟩ := List.mem_iff_getElem?.1 hmem
    obtain ⟨us, hus, huus⟩ := Artifacts.exists_piece (by decide : 0 < Artifacts.chunkSize) hn
    have hload := h _ (mem_sources_iff.2 ⟨_, us, hus, rfl⟩)
    rw [load?_piece hvalid hfiles (List.mem_of_getElem? hus)] at hload
    split at hload
    · rename_i hfits
      exact hfits u huus
    · cases hload
  · intro h s hs
    obtain ⟨k, us, hus, rfl⟩ := mem_sources_iff.1 hs
    have hpiece := List.mem_of_getElem? hus
    rw [load?_piece hvalid hfiles hpiece, if_pos]
    · rfl
    · intro u hu
      have hsub := Artifacts.mem_of_mem_pieces (by decide : 0 < Artifacts.chunkSize) hpiece
      obtain ⟨f, hf, huf⟩ := List.mem_flatMap.1 (hsub.subset hu)
      exact h f hf u huf

include hvalid hfiles in
/-- The unit at a place among all units is found through the reference to it. -/
theorem exists_unitAt {store : Store} (hstore : Store.ofArtifacts (artifacts fs) = .ok store)
    (file : FileId) {n : Nat} {u : RecordedUnit × List Line} (hu : (allUnits fs)[n]? = some u) :
    ∃ unit, store.unitAt file (Artifacts.placed n ⟨u.1.name, u.1.signature⟩) = .ok unit ∧
      RecordedUnit.LoadedAs u unit := by
  obtain ⟨-, hchunks⟩ := Artifacts.ofArtifacts_eq_ok_iff.1 hstore
  obtain ⟨us, hus, huus⟩ := Artifacts.exists_piece (by decide : 0 < Artifacts.chunkSize) hu
  obtain ⟨chunk, hload, hlookup⟩ := Store.lookup_readChunks hchunks (Artifacts.nodup_sources _)
    (mem_sources_iff.2 ⟨_, us, hus, rfl⟩)
  have hpiece := List.mem_of_getElem? hus
  rw [load?_piece hvalid hfiles hpiece] at hload
  split at hload
  · cases hload
    have hsub := Artifacts.mem_of_mem_pieces (by decide : 0 < Artifacts.chunkSize) hpiece
    have hmem : u.1.function u.2 ∈ us.map fun u => u.1.function u.2 := List.mem_map.2 ⟨u, huus, rfl⟩
    have hnodup : ((us.map fun u => u.1.function u.2).map (·.name)).Nodup := by
      rw [List.map_map]
      exact (nodup_allUnits hvalid hfiles).sublist (hsub.map _)
    have hcount : (u.1.function u.2).params.length = u.1.params.length := List.length_map _
    have hfind : Chunk.find? ⟨us.map fun u => u.1.function u.2, []⟩ (u.1.function u.2).name
        (u.1.function u.2).params.length = some (u.1.function u.2) :=
      Chunk.find?_of_mem hnodup hmem
    rw [hcount] at hfind
    have hdefines : Chunk.defines ⟨us.map fun u => u.1.function u.2, []⟩ u.1.name = true := by
      unfold Chunk.defines
      rw [List.any_eq_true]
      exact ⟨_, hmem, by simp [RecordedUnit.function]⟩
    refine ⟨⟨u.1.name, u.1.signature, ⟨us.map fun u => u.1.function u.2, []⟩⟩, ?_, rfl, rfl, hfind,
      keeps_of_units fun v hv => notMem_called hvalid v (hsub.subset hv)⟩
    unfold Store.unitAt Artifacts.placed
    simp only [hlookup, hdefines, if_true]
  · cases hload

/-- What holds at every place of a list can be listed. -/
theorem exists_forall₂_mapIdx {α β γ : Type} {l : List α} {g : Nat → α → γ} {S : γ → β → Prop}
    {T : α → β → Prop} (h : ∀ i a, l[i]? = some a → ∃ b, S (g i a) b ∧ T a b) :
    ∃ bs, List.Forall₂ S (l.mapIdx g) bs ∧ List.Forall₂ T l bs := by
  induction l generalizing g with
  | nil => exact ⟨[], .nil, .nil⟩
  | cons a l ih =>
    obtain ⟨b, hS, hT⟩ := h 0 a rfl
    obtain ⟨bs, hSs, hTs⟩ := ih (g := fun i => g (i + 1)) fun i c hc => h (i + 1) c hc
    refine ⟨b :: bs, ?_, .cons hT hTs⟩
    rw [List.mapIdx_cons]
    exact .cons hS hSs

include hvalid hfiles in
/-- The units of a loaded source are those that were recorded, in the order of recording. -/
theorem unitsFor_load {store : Store} (hstore : Store.ofArtifacts (artifacts fs) = .ok store)
    {f : RecordedFile} (hf : f ∈ fs) :
    ∃ units, store.unitsFor f.file = .ok units ∧ List.Forall₂ RecordedUnit.LoadedAs f.units units := by
  obtain ⟨hregistry, -⟩ := Artifacts.ofArtifacts_eq_ok_iff.1 hstore
  obtain ⟨before, after, rfl⟩ := List.append_of_mem hf
  -- The places of the units in the list of all units.
  have hplace : ∀ i u, f.units[i]? = some u →
      (allUnits (before ++ f :: after))[(allUnits before).length + i]? = some u := by
    intro i u hu
    obtain ⟨hi, -⟩ := List.getElem?_eq_some_iff.1 hu
    rw [allUnits, List.flatMap_append, List.flatMap_cons, ← List.append_assoc,
      List.getElem?_append_left (by simp [allUnits]; omega)]
    rw [List.getElem?_append_right (by simp [allUnits])]
    simp [allUnits, hu]
  have hwritten : ((before.map batch).flatMap Artifacts.paired).length = (allUnits before).length := by
    rw [List.flatMap_map, allUnits, List.length_flatMap, List.length_flatMap]
    simp only [paired_batch, List.length_map]
  have hentry : store.registry.units? f.file = some (f.units.mapIdx fun i u =>
      Artifacts.placed ((allUnits before).length + i) ⟨u.1.name, u.1.signature⟩) := by
    have hnodup : ((before.map batch ++ f.batch :: after.map batch).map (·.file)).Nodup := by
      rw [← List.map_cons, ← List.map_append, List.map_map]
      exact hfiles
    rw [hregistry, Registry.units?]
    change (Artifacts.register 0 ((before ++ f :: after).map batch) []).lookup f.batch.file = _
    rw [List.map_append, List.map_cons, Artifacts.lookup_register hnodup rfl, hwritten, paired_batch,
      Nat.zero_add]
    refine congrArg some (List.ext_getElem? fun i => ?_)
    simp only [List.getElem?_mapIdx, List.getElem?_map, Option.map_map]
    rfl
  obtain ⟨units, hunits, hloaded⟩ : ∃ units, List.Forall₂ (fun ref unit =>
      store.unitAt f.file ref = .ok unit) (f.units.mapIdx fun i u =>
        Artifacts.placed ((allUnits before).length + i) ⟨u.1.name, u.1.signature⟩) units ∧
      List.Forall₂ RecordedUnit.LoadedAs f.units units :=
    exists_forall₂_mapIdx fun i u hu => exists_unitAt hvalid hfiles hstore f.file (hplace i u hu)
  refine ⟨units, ?_, hloaded⟩
  unfold Store.unitsFor
  simp only [hentry]
  exact List.mapM_eq_ok_iff.2 hunits

/-- A source that was not recorded has no units. -/
theorem unitsFor_of_notMem {store : Store} (hstore : Store.ofArtifacts (artifacts fs) = .ok store)
    {file : FileId} (hfile : ∀ f ∈ fs, f.file ≠ file) : store.unitsFor file = .ok [] := by
  obtain ⟨hregistry, -⟩ := Artifacts.ofArtifacts_eq_ok_iff.1 hstore
  have hentry : store.registry.units? file = none := by
    rw [hregistry, Registry.units?]
    change (Artifacts.register 0 (fs.map batch) []).lookup file = none
    rw [Artifacts.lookup_register_of_notMem (List.forall_mem_map.2 hfile)]
    rfl
  unfold Store.unitsFor
  simp only [hentry]

end RecordedFile

end Barrage
