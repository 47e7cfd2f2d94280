import Barrage.Proofs.Bake.RegistryTexts
import Barrage.Proofs.Bake.Sessions
import Barrage.Proofs.Disk.Directories

/-!
# Artifacts on disk and in memory

Writing artifacts into a directory first removes every chunk that it finds there, then writes the chunks one after
another and last the registry. What is in the directory under any other name stays, and nothing else on the disk
changes, apart from directories that had to be made. So nothing is left of the chunks of an earlier session.

## Main definitions

* `DiskM.Ends` — a computation gives a result and leaves a disk
* `Artifacts.WrittenTo` — a disk on which artifacts were written into a directory

## Main results

* `Artifacts.removeChunks_ends`, `Artifacts.writeChunks_ends` — the two halves of writing
* `Artifacts.writtenTo_of_write` — what writing artifacts leaves
-/

namespace Barrage

/-! ### Computations on a disk -/

namespace DiskM

variable {ε α β : Type} {disk disk' : Disk}

/-- A computation gives a result and leaves a disk. -/
def Ends (x : DiskM ε α) (disk : Disk) (a : α) (disk' : Disk) : Prop := x.run.run disk = (.ok a, disk')

theorem ends_pure {a b : α} : Ends (pure a : DiskM ε α) disk b disk' ↔ b = a ∧ disk' = disk := by
  rw [Ends]
  constructor
  · intro h
    cases h
    exact ⟨rfl, rfl⟩
  · rintro ⟨rfl, rfl⟩
    rfl

/-- Of two steps, each gives a result. -/
theorem ends_bind {x : DiskM ε α} {f : α → DiskM ε β} {b : β} :
    Ends (x >>= f) disk b disk' ↔ ∃ a between, Ends x disk a between ∧ Ends (f a) between b disk' := by
  have hbind : (x >>= f).run.run disk = match x.run.run disk with
      | (.ok a, between) => (f a).run.run between
      | (.error e, between) => (.error e, between) := by
    change (ExceptT.bind x f).run.run disk = _
    simp only [ExceptT.bind, ExceptT.run, ExceptT.mk, StateT.run, bind, StateT.bind]
    cases x disk with
    | mk r between => cases r <;> rfl
  simp only [Ends]
  rw [hbind]
  rcases x.run.run disk with ⟨r, between⟩
  cases r with
  | error e =>
    constructor
    · intro h
      cases h
    · rintro ⟨a, other, h, -⟩
      cases h
  | ok a =>
    constructor
    · exact fun h => ⟨a, between, rfl, h⟩
    · rintro ⟨a', other, h, h'⟩
      cases h
      exact h'

theorem ends_get {read : Disk} : Ends (get : DiskM ε Disk) disk read disk' ↔ read = disk ∧ disk' = disk := by
  constructor
  · intro h
    cases h
    exact ⟨rfl, rfl⟩
  · rintro ⟨rfl, rfl⟩
    rfl

theorem ends_set {after : Disk} : Ends (set after : DiskM ε PUnit) disk () disk' ↔ disk' = after := by
  constructor
  · intro h
    cases h
    rfl
  · rintro rfl
    rfl

theorem not_ends_throw {e : ε} {a : α} : ¬Ends (throw e : DiskM ε α) disk a disk' := by
  intro h
  cases h

theorem ends_update {path : String} {error : String → OsError → ε} {op : Disk → Except OsError Disk} :
    Ends (update path error op) disk () disk' ↔ op disk = .ok disk' := by
  rw [update, ends_bind]
  constructor
  · rintro ⟨read, between, hget, hop⟩
    obtain ⟨rfl, rfl⟩ := ends_get.1 hget
    split at hop
    · rename_i heq
      rw [heq, ends_set.1 hop]
    · exact absurd hop not_ends_throw
  · intro hop
    refine ⟨disk, disk, ends_get.2 ⟨rfl, rfl⟩, ?_⟩
    simp only [hop]
    exact ends_set.2 rfl

theorem ends_query {path : String} {error : String → OsError → ε} {op : Disk → Except OsError α} {a : α} :
    Ends (query path error op) disk a disk' ↔ op disk = .ok a ∧ disk' = disk := by
  rw [query, ends_bind]
  constructor
  · rintro ⟨read, between, hget, hop⟩
    obtain ⟨rfl, rfl⟩ := ends_get.1 hget
    split at hop
    · rename_i heq
      obtain ⟨rfl, rfl⟩ := ends_pure.1 hop
      exact ⟨heq, rfl⟩
    · exact absurd hop not_ends_throw
  · rintro ⟨hop, rfl⟩
    refine ⟨_, _, ends_get.2 ⟨rfl, rfl⟩, ?_⟩
    simp only [hop]
    exact ends_pure.2 ⟨rfl, rfl⟩

theorem ends_createAll {path : String} {error : String → OsError → ε} :
    Ends (createAll path error) disk () disk' ↔ disk.createAll path = (none, disk') := by
  rw [createAll, ends_bind]
  constructor
  · rintro ⟨read, between, hget, hop⟩
    obtain ⟨rfl, rfl⟩ := ends_get.1 hget
    obtain ⟨⟨⟩, after, hset, hop⟩ := ends_bind.1 hop
    obtain rfl := ends_set.1 hset
    split at hop
    · rename_i heq
      obtain ⟨-, rfl⟩ := ends_pure.1 hop
      exact Prod.ext heq rfl
    · exact absurd hop not_ends_throw
  · intro hop
    refine ⟨_, _, ends_get.2 ⟨rfl, rfl⟩, ?_⟩
    rw [hop]
    exact ends_bind.2 ⟨(), disk', ends_set.2 rfl, ends_pure.2 ⟨rfl, rfl⟩⟩

end DiskM

namespace Artifacts

open DiskM

/-! ### Names of chunk files -/

theorem isChunkFile_iff {name : String} :
    isChunkFile name = true ↔ chunkStem.toList <+: name.toList ∧ ".rhai".toList <:+ name.toList := by
  have hends : name.endsWith ("." ++ chunkExtension) = name.toSlice.endsWith ".rhai" := rfl
  rw [isChunkFile, Bool.and_eq_true, String.startsWith_string_iff, hends, String.Slice.endsWith_string_iff,
    String.copy_toSlice]

theorem isChunkFile_chunkFile (index : Nat) : isChunkFile (chunkFile index) = true := by
  rw [isChunkFile_iff, toList_chunkFile]
  exact ⟨List.prefix_append _ _, (List.suffix_append _ _).trans (List.suffix_append _ _)⟩

theorem isName_chunkFile (index : Nat) : Path.IsName (chunkFile index) := by
  have hlist := toList_chunkFile index
  have hne (text : String) (htext : ¬chunkStem.toList <+: text.toList) : chunkFile index ≠ text := by
    rintro rfl
    exact htext (isChunkFile_iff.1 (isChunkFile_chunkFile index)).1
  refine ⟨hne _ (by decide), fun hslash => ?_, hne _ (by decide), hne _ (by decide)⟩
  rw [hlist] at hslash
  rcases List.mem_append.1 hslash with hmem | hmem
  · exact absurd hmem (by decide)
  · rcases List.mem_append.1 hmem with hmem | hmem
    · exact absurd (Checked.isDigit_of_mem_toDigits hmem) (by decide)
    · exact absurd hmem (by decide)

theorem isName_registryFile : Path.IsName registryFile := by
  constructor <;> decide

theorem not_isChunkFile_registryFile : ¬isChunkFile registryFile = true := by
  rw [isChunkFile_iff]
  exact fun h => absurd h.1 (by decide)

/-! ### Writing -/

section

variable {disk disk' : Disk} {dir : String} {place : List String}

theorem removeChunks_cons (dir name : String) (names : List String) : removeChunks dir (name :: names) =
    if isChunkFile name then
      DiskM.update (Path.join dir name) .io (fun disk => disk.removeFile (Path.join dir name)) >>= fun _ =>
        removeChunks dir names
    else removeChunks dir names := rfl

/-- Removing chunks removes the files with the names of chunks, and nothing else. -/
theorem removeChunks_ends {names : List String} (h : disk.Holds dir place) (hnames : ∀ name ∈ names, Path.IsName name)
    (hrun : Ends (removeChunks dir names) disk () disk') :
    disk'.Holds dir place ∧ ∀ other, disk'.entry? other =
      if ∃ name ∈ names, isChunkFile name = true ∧ other = place ++ [name] then none else disk.entry? other := by
  induction names generalizing disk with
  | nil =>
    obtain ⟨-, rfl⟩ := ends_pure.1 hrun
    exact ⟨h, fun other => by simp⟩
  | cons name names ih =>
    obtain ⟨hname, hnames⟩ := List.forall_mem_cons.1 hnames
    rw [removeChunks_cons] at hrun
    by_cases hchunk : isChunkFile name = true
    · rw [if_pos hchunk] at hrun
      obtain ⟨⟨⟩, between, hremove, hrun⟩ := ends_bind.1 hrun
      obtain ⟨hbetween, -, hentries⟩ := h.removeFile hname (ends_update.1 hremove)
      obtain ⟨hafter, hrest⟩ := ih hbetween hnames hrun
      refine ⟨hafter, fun other => ?_⟩
      rw [hrest, hentries]
      by_cases hother : other = place ++ [name]
      · simp [hother, hchunk]
      · simp [hother]
    · rw [if_neg hchunk] at hrun
      obtain ⟨hafter, hrest⟩ := ih h hnames hrun
      refine ⟨hafter, fun other => ?_⟩
      rw [hrest]
      simp [hchunk]

/-- Writing chunks puts each under the name of its place, where it can be read, and changes nothing else. -/
theorem writeChunks_ends {texts : List String} {index : Nat} (h : disk.Holds dir place)
    (hrun : Ends (writeChunks dir index texts) disk () disk') :
    disk'.Holds dir place ∧ disk.DirectoriesIn disk' ∧
      (∀ i text, texts[i]? = some text →
        disk'.resolve (Path.join dir (chunkFile (index + i))) = .ok (place ++ [chunkFile (index + i)]) ∧
          disk'.entry? (place ++ [chunkFile (index + i)]) = some (.file text)) ∧
      ∀ other, (∀ i < texts.length, other ≠ place ++ [chunkFile (index + i)]) →
        disk'.entry? other = disk.entry? other := by
  induction texts generalizing disk index with
  | nil =>
    obtain ⟨-, rfl⟩ := ends_pure.1 hrun
    exact ⟨h, .refl _, fun i text hi => absurd hi (by simp), fun other _ => rfl⟩
  | cons text texts ih =>
    obtain ⟨⟨⟩, between, hwrite, hrun⟩ := ends_bind.1 hrun
    obtain ⟨hbetween, hresolve, hin, hentries⟩ := h.writeText (isName_chunkFile index) (ends_update.1 hwrite)
    obtain ⟨hafter, hin', hwritten, hrest⟩ := ih hbetween hrun
    have hindex (i : Nat) : index + (i + 1) = index + 1 + i := by omega
    refine ⟨hafter, hin.trans hin', fun i written hi => ?_, fun other hother => ?_⟩
    · cases i with
      | zero =>
        obtain rfl : text = written := by simpa using hi
        have hkept := hrest (place ++ [chunkFile index]) fun i _ heq => by
          have := chunkFile_injective (List.cons.inj (List.append_cancel_left heq)).1
          omega
        exact ⟨hin'.resolve hresolve, hkept.trans ((hentries _).trans (if_pos rfl))⟩
      | succ i =>
        rw [hindex]
        exact hwritten i written (by simpa using hi)
    · have hfirst : other ≠ place ++ [chunkFile index] := hother 0 (by simp)
      have hlater := hrest other fun i hi => hindex i ▸ hother (i + 1) (by simpa using hi)
      rw [hlater, hentries, if_neg hfirst]

variable {artifacts : Artifacts}

/-- The text under the name of a chunk. -/
theorem lookup_sources {i : Nat} {text : String} (h : artifacts.chunks[i]? = some text) :
    artifacts.sources.lookup (chunkFile i) = some text := by
  refine Expr.lookup_of_mem (nodup_sources artifacts) (List.mem_iff_getElem?.2 ⟨i, ?_⟩)
  rw [sources, List.getElem?_mapIdx, h]
  rfl

theorem exists_of_lookup_sources {name text : String} (h : artifacts.sources.lookup name = some text) :
    ∃ i < artifacts.chunks.length, name = chunkFile i := by
  obtain ⟨before, after, heq, -⟩ := List.lookup_eq_some_iff.1 h
  have hmem : (name, text) ∈ artifacts.sources := by simp [heq]
  obtain ⟨i, hi, hfile⟩ := List.mem_mapIdx.1 hmem
  exact ⟨i, hi, (congrArg Prod.fst hfile).symm⟩

/-- A disk on which artifacts were written into a directory: it holds their chunks under names of chunks, and no others,
and the registry under its name. What is at all other places is as it was, but for directories that had to be made. -/
structure WrittenTo (artifacts : Artifacts) (dir : String) (place : List String) (disk disk' : Disk) : Prop where
  holds : disk'.Holds dir place
  readChunk : ∀ i text, artifacts.chunks[i]? = some text → disk'.readText (Path.join dir (chunkFile i)) = .ok text
  readRegistry : disk'.readText (Path.join dir registryFile) = .ok (artifacts.registry.toJson.pretty 0)
  chunk : ∀ name, isChunkFile name = true →
    disk'.entry? (place ++ [name]) = (artifacts.sources.lookup name).map .file
  registry : disk'.entry? (place ++ [registryFile]) = some (.file (artifacts.registry.toJson.pretty 0))
  other : ∀ other, (∀ name, other = place ++ [name] → ¬isChunkFile name = true ∧ name ≠ registryFile) →
    disk'.textAt? other = disk.textAt? other

/-- What writing artifacts leaves. -/
theorem writtenTo_of_write (hdisk : disk.IsTree) (hwrite : Ends (artifacts.write dir) disk () disk') :
    ∃ place, artifacts.WrittenTo dir place disk disk' := by
  obtain ⟨⟨⟩, found, hcreate, hwrite⟩ := ends_bind.1 hwrite
  obtain ⟨names, listed, hquery, hwrite⟩ := ends_bind.1 hwrite
  obtain ⟨⟨⟩, cleared, hremove, hwrite⟩ := ends_bind.1 hwrite
  obtain ⟨⟨⟩, filled, hchunks, hregistry⟩ := ends_bind.1 hwrite
  obtain ⟨hlist, rfl⟩ := ends_query.1 hquery
  obtain ⟨htree, hadds⟩ := hdisk.createAll dir
  rw [ends_createAll.1 hcreate] at htree hadds
  obtain ⟨place, hlisted⟩ := htree.holds_of_list hlist
  obtain ⟨hnames, hall⟩ := hlisted.list hlist
  obtain ⟨hcleared, hclear⟩ := removeChunks_ends hlisted hnames hremove
  obtain ⟨hfilled, -, hfill, hkeep⟩ := writeChunks_ends hcleared hchunks
  obtain ⟨hafter, hresolve, hin, hput⟩ := hfilled.writeText isName_registryFile (ends_update.1 hregistry)
  simp only [Nat.zero_add] at hfill hkeep
  have hchunk (name : String) (hname : isChunkFile name = true) : place ++ [name] ≠ place ++ [registryFile] := by
    intro heq
    obtain rfl := (List.cons.inj (List.append_cancel_left heq)).1
    exact not_isChunkFile_registryFile hname
  have hentry (i : Nat) (text : String) (hi : artifacts.chunks[i]? = some text) :
      disk'.entry? (place ++ [chunkFile i]) = some (.file text) := by
    rw [hput, if_neg (hchunk _ (isChunkFile_chunkFile i))]
    exact (hfill i text hi).2
  refine ⟨place, hafter, fun i text hi => ?_, ?_, fun name hname => ?_, ?_, fun other hother => ?_⟩
  · exact Disk.readText_of_resolve (hin.resolve (hfill i text hi).1) (hentry i text hi)
  · exact Disk.readText_of_resolve hresolve ((hput _).trans (if_pos rfl))
  · cases hlookup : artifacts.sources.lookup name with
    | some text =>
      obtain ⟨i, hi, rfl⟩ := exists_of_lookup_sources hlookup
      have hget := List.getElem?_eq_getElem hi
      rw [lookup_sources hget] at hlookup
      obtain rfl := Option.some.inj hlookup
      exact hentry i _ hget
    | none =>
      -- No chunk was written under the name, and what was there has been removed.
      have hnew : ∀ i < artifacts.chunks.length, place ++ [name] ≠ place ++ [chunkFile i] := by
        intro i hi heq
        obtain rfl := (List.cons.inj (List.append_cancel_left heq)).1
        rw [lookup_sources (List.getElem?_eq_getElem hi)] at hlookup
        cases hlookup
      have hdots : name ≠ ".." := by
        rintro rfl
        exact absurd (isChunkFile_iff.1 hname).1 (by decide)
      have htop : name ≠ "/" := by
        rintro rfl
        exact absurd (isChunkFile_iff.1 hname).1 (by decide)
      rw [hput, if_neg (hchunk name hname), hkeep _ hnew, hclear]
      split
      · rfl
      · rename_i hkept
        by_contra hsome
        exact hkept ⟨name, hall name hdots htop hsome, hname, rfl⟩
  · exact (hput _).trans (if_pos rfl)
  · have hregistry : other ≠ place ++ [registryFile] := fun heq => (hother registryFile heq).2 rfl
    have hwritten : ∀ i < artifacts.chunks.length, other ≠ place ++ [chunkFile i] := fun i _ heq =>
      (hother _ heq).1 (isChunkFile_chunkFile i)
    have hremoved : ¬∃ name ∈ names, isChunkFile name = true ∧ other = place ++ [name] := by
      rintro ⟨name, -, hname, heq⟩
      exact (hother name heq).1 hname
    rw [← hadds.textAt?, Disk.textAt?, hput, if_neg hregistry, hkeep _ hwritten, hclear, if_neg hremoved, Disk.textAt?]

end

end Artifacts

end Barrage
