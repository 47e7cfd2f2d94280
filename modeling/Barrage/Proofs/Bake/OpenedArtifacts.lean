import Barrage.Proofs.Bake.WrittenArtifacts

/-!
# Artifacts that are opened

Opening a directory reads the registry and every chunk that it mentions, each once, in the order of first mention. The
registry of a session mentions exactly the chunks there are, since no chunk is empty. So what is loaded from a
directory is what would have been loaded from memory, whatever an earlier session left there. The texts are sorted by
their names before they are read as chunks, and names differ, so it does not matter in which order they came.

## Main results

* `Registry.mem_chunkNames`, `Registry.nodup_chunkNames` — the chunks a registry mentions, each once
* `Artifacts.mem_chunkNames_ofBatches` — the registry of some batches mentions every chunk, and no others
* `Store.readChunks_perm` — the order of chunk texts does not matter
* `Artifacts.opens_as_in_memory` — artifacts that were written are loaded as they would be from memory
-/

namespace Barrage

/-! ### The chunks of a registry -/

namespace Registry

/-- Names that are added to others unless they are among them. -/
theorem addNames (mentions names : List String) (hnodup : names.Nodup) :
    (mentions.foldl (fun names name => if names.contains name then names else names ++ [name]) names).Nodup ∧
      ∀ name, name ∈ mentions.foldl (fun names name => if names.contains name then names else names ++ [name]) names ↔
        name ∈ names ∨ name ∈ mentions := by
  induction mentions generalizing names with
  | nil => simpa using hnodup
  | cons mention mentions ih =>
    rw [List.foldl_cons]
    by_cases hmem : mention ∈ names
    · rw [if_pos (by simpa using hmem)]
      obtain ⟨hdistinct, hiff⟩ := ih names hnodup
      refine ⟨hdistinct, fun name => ?_⟩
      rw [hiff, List.mem_cons]
      constructor
      · exact fun h => h.imp_right .inr
      · rintro (h | rfl | h)
        · exact .inl h
        · exact .inl hmem
        · exact .inr h
    · rw [if_neg (by simpa using hmem)]
      have hnext : (names ++ [mention]).Nodup :=
        List.nodup_append.2 ⟨hnodup, List.nodup_singleton _, fun a ha b hb heq =>
          hmem (List.mem_singleton.1 hb ▸ heq ▸ ha)⟩
      obtain ⟨hdistinct, hiff⟩ := ih _ hnext
      refine ⟨hdistinct, fun name => ?_⟩
      rw [hiff, List.mem_append, List.mem_singleton, List.mem_cons, or_assoc]

theorem nodup_chunkNames (registry : Registry) : registry.chunkNames.Nodup :=
  (addNames _ [] List.nodup_nil).1

/-- A registry mentions the chunks of its references. -/
theorem mem_chunkNames {registry : Registry} {name : String} : name ∈ registry.chunkNames ↔
    ∃ entry ∈ registry.files, ∃ ref ∈ entry.2, ref.chunk = name := by
  refine ((addNames _ [] List.nodup_nil).2 name).trans ?_
  simp

/-- The entry of a source is the one under its id. -/
theorem Sorted.units?_eq_some_iff {registry : Registry} (h : Sorted registry.files) (file : FileId)
    (refs : List UnitRef) : registry.units? file = some refs ↔ (file, refs) ∈ registry.files := by
  rw [units?, List.lookup_eq_some_iff]
  constructor
  · rintro ⟨before, after, heq, -⟩
    simp [heq]
  · intro hmem
    obtain ⟨before, after, heq⟩ := List.append_of_mem hmem
    refine ⟨before, after, heq, fun entry hentry => ?_⟩
    rw [Sorted, heq] at h
    have hlt := (List.pairwise_append.1 h).2.2 entry hentry (file, refs) List.mem_cons_self
    simpa using fun hfile : file = entry.1 => absurd hlt (by rw [← hfile]; exact lt_irrefl _)

end Registry

namespace Artifacts

/-- The registry of some batches mentions every chunk, and no others. -/
theorem mem_chunkNames_ofBatches {batches : List Batch} {name : String} :
    name ∈ (ofBatches batches).registry.chunkNames ↔ ∃ i < (ofBatches batches).chunks.length, name = chunkFile i := by
  have hlaid := laidOut_ofBatches batches
  have hsorted : Registry.Sorted (ofBatches batches).registry.files := hlaid.keys.1
  have hentry := hsorted.units?_eq_some_iff
  rw [Registry.mem_chunkNames, hlaid.count]
  constructor
  · rintro ⟨⟨file, refs⟩, hmem, ref, href, rfl⟩
    have hunits := (hentry file refs).2 hmem
    rw [hlaid.entries] at hunits
    split at hunits
    · obtain rfl := Option.some.inj hunits
      obtain ⟨listed, hlisted, rfl⟩ := List.mem_map.1 href
      obtain ⟨j, hj, rfl⟩ := List.mem_mapIdx.1 (List.mem_filter.1 hlisted).1
      exact ⟨j / 300, by omega, rfl⟩
    · contradiction
  · -- The first unit of a chunk is listed for its source.
    rintro ⟨i, hi, rfl⟩
    have hj : i * 300 < (units batches).length := by omega
    obtain ⟨batch, hbatch, hunit⟩ := List.mem_flatMap.1 (List.getElem_mem hj)
    have hfile : ((units batches)[i * 300]).1 = batch.file := by
      obtain ⟨p, -, hp⟩ := List.mem_map.1 hunit
      rw [← hp]
    have hunits := hlaid.entries batch.file
    rw [if_pos (List.mem_map_of_mem hbatch)] at hunits
    refine ⟨_, (hentry _ _).1 hunits, _, List.mem_map.2 ⟨_, List.mem_filter.2
      ⟨List.mem_mapIdx.2 ⟨i * 300, hj, rfl⟩, by simpa using hfile⟩, rfl⟩, ?_⟩
    rw [Nat.mul_div_cancel i (by decide)]

end Artifacts

/-! ### Reading chunks in any order -/

namespace Store

variable {sources sources' : List (String × String)}

/-- Chunk texts under distinct names are sorted into one order. -/
theorem sortSources_perm (hnodup : (sources.map Prod.fst).Nodup) (hperm : sources.Perm sources') :
    sortSources sources = sortSources sources' := by
  have hsorted (l : List (String × String)) : (sortSources l).Pairwise fun a b => (!decide (b.1 < a.1)) = true := by
    refine List.pairwise_mergeSort (fun a b c hab hbc => ?_) (fun a b => ?_) l
    · simp only [Bool.not_eq_true', decide_eq_false_iff_not, not_lt] at hab hbc ⊢
      exact hab.trans hbc
    · simp only [Bool.or_eq_true, Bool.not_eq_true', decide_eq_false_iff_not, not_lt]
      exact le_total a.1 b.1
  have hall : (sortSources sources).Perm (sortSources sources') :=
    (List.mergeSort_perm _ _).trans (hperm.trans (List.mergeSort_perm _ _).symm)
  refine hall.eq_of_pairwise (fun a b ha hb hab hba => ?_) (hsorted sources) (hsorted sources')
  simp only [Bool.not_eq_true', decide_eq_false_iff_not, not_lt] at hab hba
  have hmem := (mem_sortSources sources a).1 ha
  have hmem' := hperm.mem_iff.2 ((mem_sortSources sources' b).1 hb)
  exact List.inj_on_of_nodup_map hnodup hmem hmem' (le_antisymm hab hba)

/-- The order in which chunk texts come does not matter. -/
theorem readChunks_perm (hnodup : (sources.map Prod.fst).Nodup) (hperm : sources.Perm sources') :
    readChunks sources = readChunks sources' := by
  rw [readChunks, readChunks, sortSources_perm hnodup hperm]

end Store

/-! ### Opening a directory -/

namespace Artifacts

open DiskM

variable {disk disk' : Disk} {dir : String} {place : List String} {artifacts : Artifacts}

/-- The text under the name of a chunk. -/
def textOf (artifacts : Artifacts) (name : String) : String := (artifacts.sources.lookup name).getD ""

/-- The texts of the chunks come, in some order, from their names. -/
theorem sources_perm {names : List String} (hnodup : names.Nodup)
    (hnames : ∀ name, name ∈ names ↔ ∃ i < artifacts.chunks.length, name = chunkFile i) :
    artifacts.sources.Perm (names.map fun name => (name, artifacts.textOf name)) := by
  have hfiles : (artifacts.sources.map Prod.fst).Perm names := by
    refine (List.perm_ext_iff_of_nodup (nodup_sources artifacts) hnodup).2 fun name => ?_
    rw [hnames]
    constructor
    · intro hmem
      obtain ⟨source, hsource, rfl⟩ := List.mem_map.1 hmem
      obtain ⟨i, hi, rfl⟩ := List.mem_mapIdx.1 hsource
      exact ⟨i, hi, rfl⟩
    · rintro ⟨i, hi, rfl⟩
      exact List.mem_map.2 ⟨_, List.mem_mapIdx.2 ⟨i, hi, rfl⟩, rfl⟩
  have hself : (artifacts.sources.map Prod.fst).map (fun name => (name, artifacts.textOf name)) =
      artifacts.sources := by
    rw [List.map_map, List.map_congr_left (g := id) fun source hsource => ?_, List.map_id]
    obtain ⟨i, hi, rfl⟩ := List.mem_mapIdx.1 hsource
    simp [textOf, lookup_sources (List.getElem?_eq_getElem hi)]
  exact hself ▸ hfiles.map _

/-- What is loaded from a directory in which artifacts were written is what is loaded from memory. -/
theorem WrittenTo.open_eq {batches : List Batch} (h : (ofBatches batches).WrittenTo dir place disk disk') :
    Store.open dir disk' = Store.ofArtifacts (ofBatches batches) := by
  have hversion : (ofBatches batches).registry.version < 2 ^ 32 := by
    change Registry.currentVersion < 2 ^ 32
    decide
  have hregistry := (ofBatches batches).registry.readDocument?_pretty hversion (laidOut_ofBatches batches).keys.1 0
  have hchunks : (ofBatches batches).registry.chunkNames.mapM (fun name => do
      let text ← (disk'.readText (Path.join dir name)).mapError (BakeError.io (Path.join dir name))
      Except.ok (name, text)) = .ok ((ofBatches batches).registry.chunkNames.map fun name =>
        (name, (ofBatches batches).textOf name)) := by
    rw [List.mapM_eq_ok_iff, List.forall₂_map_right_iff, List.forall₂_same]
    intro name hname
    obtain ⟨i, hi, rfl⟩ := mem_chunkNames_ofBatches.1 hname
    have hget := List.getElem?_eq_getElem hi
    rw [h.readChunk i _ hget, textOf, lookup_sources hget]
    rfl
  have hperm := sources_perm (ofBatches batches).registry.nodup_chunkNames fun name => mem_chunkNames_ofBatches
  have hread := Store.readChunks_perm (nodup_sources _) hperm
  have hregistryText : (disk'.readText (Path.join dir registryFile)).mapError
      (BakeError.io (Path.join dir registryFile)) = .ok ((ofBatches batches).registry.toJson.pretty 0) :=
    congrArg (Except.mapError _) h.readRegistry
  simp only [Store.open, hregistryText, Except.ok_bind, hregistry, hchunks, ← hread]
  rfl

/-- Artifacts that were written into a directory are loaded as they would be from memory, whatever was there before.
The directory holds their chunks and no others, and the registry under its name; every other file is as it was. The text
of any registry is read as that registry. -/
theorem opens_as_in_memory {session after : Session} (hexport : session.export = .ok (some artifacts, after))
    (hdisk : disk.IsTree) (hwrite : (artifacts.write dir).run.run disk = (.ok (), disk')) :
    Store.open dir disk' = Store.ofArtifacts artifacts ∧
      (∃ place, disk'.resolve dir = .ok place ∧
        (∀ name, isChunkFile name = true →
          disk'.entry? (place ++ [name]) = (artifacts.sources.lookup name).map .file) ∧
        (∃ text, disk'.entry? (place ++ [registryFile]) = some (.file text) ∧
          Json.readDocument? Registry.ofJson text = some artifacts.registry) ∧
        ∀ other, (∀ name, other = place ++ [name] → ¬isChunkFile name = true ∧ name ≠ registryFile) →
          disk'.textAt? other = disk.textAt? other) ∧
      ∀ registry : Registry, registry.version < 2 ^ 32 → Registry.Sorted registry.files →
        Json.readDocument? Registry.ofJson (registry.toJson.pretty 0) = some registry := by
  obtain ⟨place, hwritten⟩ := writtenTo_of_write hdisk hwrite
  have hbatches : artifacts = ofBatches session.batches := by
    rw [Session.export] at hexport
    split at hexport
    · cases hexport
    split at hexport
    · cases hexport
      rfl
    · cases hexport
  subst hbatches
  refine ⟨hwritten.open_eq, ⟨place, hwritten.holds.resolve, hwritten.chunk, ⟨_, hwritten.registry, ?_⟩, hwritten.other⟩,
    fun registry hversion hsorted => registry.readDocument?_pretty hversion hsorted 0⟩
  have hversion : (ofBatches session.batches).registry.version < 2 ^ 32 := by
    change Registry.currentVersion < 2 ^ 32
    decide
  exact Registry.readDocument?_pretty _ hversion (laidOut_ofBatches session.batches).keys.1 0

/-! ### A directory with leftovers -/

/-- A directory with a chunk of an earlier session and a file of someone else. -/
def leftovers : Disk where
  entries := [(["baked"], .directory), (["baked", "generated_7.rhai"], .file "fn old() \x7b 1 \x7d"),
    (["baked", "notes.txt"], .file "keep")]

/-- A session that has recorded one unit. -/
def oneUnit : Session where
  mode := .record
  batches := [⟨⟨"A"⟩, ["fn A_0() \x7b 1 \x7d"], [⟨"A_0", ⟨[], .int⟩⟩]⟩]

theorem isTree_leftovers : leftovers.IsTree := by
  have hroot : leftovers.Founded [] := Disk.founded_of_isAnchor rfl
  have hbaked : leftovers.Founded ["baked"] :=
    hroot.concat (Disk.entry?_of_isAnchor rfl) ⟨by decide, by decide, by decide, by decide⟩
  refine List.forall_mem_cons.2 ⟨hbaked, List.forall_mem_cons.2 ⟨?_, List.forall_mem_singleton.2 ?_⟩⟩
  · exact hbaked.concat rfl ⟨by decide, by decide, by decide, by decide⟩
  · exact hbaked.concat rfl ⟨by decide, by decide, by decide, by decide⟩

theorem names_baked : Path.names "baked" = ["baked"] := by
  rw [Path.names, Path.splitOn_slash]
  decide

theorem resolve_baked (disk : Disk) : disk.resolve "baked" = .ok ["baked"] := by
  have hends : ¬"baked".endsWith "/" = true := by decide +kernel
  have hstart : Disk.start "baked" = [] := by decide +kernel
  have hsteps : Path.steps "baked" = ["baked"] := (if_neg hends).trans names_baked
  refine Disk.resolve_eq_ok_iff.2 ⟨?_, by decide, by decide, ?_⟩
  · rw [String.contains_char_eq]
    decide
  · rw [hstart, hsteps]
    rfl

/-- The path of a file in the directory leads to it. -/
theorem resolve_join_baked {disk : Disk} (h : disk.entry? ["baked"] = some .directory) {name : String}
    (hname : Path.IsName name) (hnul : '\x00' ∉ name.toList) (hshort : name.utf8ByteSize ≤ Disk.maxName) :
    disk.resolve (Path.join "baked" name) = .ok ["baked", name] := by
  have hjoin : Path.join "baked" name = "baked" ++ "/" ++ name :=
    hname.join_of_not_endsWith (by decide) (by decide +kernel)
  have hsize : ("baked" ++ "/" ++ name).utf8ByteSize = 6 + name.utf8ByteSize := by
    rw [String.utf8ByteSize_append]
    rfl
  refine Disk.resolve_join_eq hname hnul hshort ?_ (resolve_baked disk) h
  rw [Disk.maxName] at hshort
  rw [hjoin, hsize, Disk.maxPath]
  omega

theorem list_leftovers : leftovers.list "baked" = .ok ["generated_7.rhai", "notes.txt"] := by
  have hsorted : Disk.sortNames ["generated_7.rhai", "notes.txt"] = ["generated_7.rhai", "notes.txt"] :=
    List.mergeSort_of_pairwise (by decide)
  simp only [Disk.list, resolve_baked]
  exact congrArg Except.ok hsorted

theorem createAll_baked {disk : Disk} (h : disk.entry? ["baked"] = some .directory) :
    disk.createAll "baked" = (none, disk) := by
  have hslashes : Path.withoutSlashes "baked" = "baked" := by decide +kernel
  have hcreate : disk.create "baked" = .error .alreadyExists := by
    simp only [Disk.create, hslashes, resolve_baked, Except.ok_bind, h]
  have hdirectory : disk.isDirectory "baked" = true := by
    simp only [Disk.isDirectory, Disk.find, resolve_baked, Except.ok_bind, h]
  rw [Disk.createAll, if_neg (by decide), Disk.createUpward, hcreate]
  simp [hdirectory]

/-- A file that was not there is written, and nothing else changes. -/
theorem writeText_new {disk : Disk} {name : String} (text : String) (hname : name ≠ ".." ∧ name ≠ "/")
    (hresolve : disk.resolve (Path.join "baked" name) = .ok ["baked", name])
    (hnone : disk.entry? ["baked", name] = none) :
    ∃ disk', disk.writeText (Path.join "baked" name) text = .ok disk' ∧
      ∀ other, other ≠ ["baked", name] → disk'.entry? other = disk.entry? other := by
  refine ⟨disk.put ["baked", name] (.file text), ?_, fun other hother => ?_⟩
  · simp only [Disk.writeText, hresolve, bind, Except.bind, hnone]
  · have hanchor : ¬Place.isAnchor (["baked"] ++ [name]) = true := Place.not_isAnchor_concat hname.1 hname.2
    exact (Disk.entry?_put hanchor).trans (if_neg hother)

/-- Artifacts with one chunk are written if none of their files is there after the old chunks were removed. -/
theorem write_baked {disk cleared : Disk} {names : List String} {text : String}
    (hdirectory : disk.entry? ["baked"] = some .directory) (hlist : disk.list "baked" = .ok names)
    (hremove : Ends (removeChunks "baked" names) disk () cleared) (hkept : cleared.entry? ["baked"] = some .directory)
    (hchunk : cleared.entry? ["baked", chunkFile 0] = none) (hregistry : cleared.entry? ["baked", registryFile] = none)
    (hchunks : artifacts.chunks = [text]) : ∃ disk', (artifacts.write "baked").run.run disk = (.ok (), disk') := by
  obtain ⟨filled, hfill, hothers⟩ := writeText_new text (by decide)
    (resolve_join_baked hkept (isName_chunkFile 0) (by decide) (by decide)) hchunk
  have hne : registryFile ≠ chunkFile 0 := fun heq => not_isChunkFile_registryFile (heq ▸ isChunkFile_chunkFile 0)
  have hdirectory' : filled.entry? ["baked"] = some .directory := (hothers _ (by decide)).trans hkept
  have hfree : filled.entry? ["baked", registryFile] = none := (hothers _ (by simpa using hne)).trans hregistry
  obtain ⟨written, hwritten, -⟩ := writeText_new (artifacts.registry.toJson.pretty 0) (by decide)
    (resolve_join_baked hdirectory' isName_registryFile (by decide) (by decide)) hfree
  have hfilled : Ends (writeChunks "baked" 0 artifacts.chunks) cleared () filled := by
    rw [hchunks]
    exact ends_bind.2 ⟨(), filled, ends_update.2 hfill, ends_pure.2 ⟨rfl, rfl⟩⟩
  exact ⟨written, ends_bind.2 ⟨(), disk, ends_createAll.2 (createAll_baked hdirectory),
    ends_bind.2 ⟨_, _, ends_query.2 ⟨hlist, rfl⟩,
      ends_bind.2 ⟨(), cleared, hremove, ends_bind.2 ⟨(), filled, hfilled, ends_update.2 hwritten⟩⟩⟩⟩⟩

theorem write_leftovers :
    ∃ disk', ((ofBatches oneUnit.batches).write "baked").run.run leftovers = (.ok (), disk') := by
  have hseven : leftovers.resolve (Path.join "baked" "generated_7.rhai") = .ok ["baked", "generated_7.rhai"] :=
    resolve_join_baked rfl (isName_chunkFile 7) (by decide) (by decide)
  have hremove : leftovers.removeFile (Path.join "baked" "generated_7.rhai") =
      .ok (leftovers.remove ["baked", "generated_7.rhai"]) := by
    simp only [Disk.removeFile, hseven]
    rfl
  have hcleared : Ends (removeChunks "baked" ["generated_7.rhai", "notes.txt"]) leftovers ()
      (leftovers.remove ["baked", "generated_7.rhai"]) := by
    have hchunk : isChunkFile "generated_7.rhai" = true := isChunkFile_chunkFile 7
    have hother : ¬isChunkFile "notes.txt" = true := fun h => absurd (isChunkFile_iff.1 h).1 (by decide)
    rw [removeChunks_cons, if_pos hchunk, removeChunks_cons, if_neg hother]
    exact ends_bind.2 ⟨(), _, ends_update.2 hremove, ends_pure.2 ⟨rfl, rfl⟩⟩
  have hchunks : (ofBatches oneUnit.batches).chunks = [chunkText ["fn A_0() \x7b 1 \x7d"]] :=
    congrArg (List.map chunkText) (pieces_of_length_le (List.cons_ne_nil _ _) (by decide))
  exact write_baked rfl list_leftovers hcleared rfl (by decide +kernel) (by decide +kernel) hchunks

/-- The chunk of the earlier session is gone, the other file is as it was, and what is loaded is the unit. -/
theorem opens_as_in_memory_leftovers : ∃ disk',
    oneUnit.export = .ok (some (ofBatches oneUnit.batches), { oneUnit with batches := [] }) ∧ leftovers.IsTree ∧
      ((ofBatches oneUnit.batches).write "baked").run.run leftovers = (.ok (), disk') ∧
      Store.open "baked" disk' = Store.ofArtifacts (ofBatches oneUnit.batches) := by
  obtain ⟨disk', hwrite⟩ := write_leftovers
  have hexport : oneUnit.export = .ok (some (ofBatches oneUnit.batches), { oneUnit with batches := [] }) := rfl
  exact ⟨disk', hexport, isTree_leftovers, hwrite, (opens_as_in_memory hexport isTree_leftovers hwrite).1⟩

end Artifacts

end Barrage
