import Barrage.Proofs.Disk.Directories

/-!
# Files that are spared

What writes into one directory may share the disk with others. They see no difference if all directories are still
there and their own files are listed as before, with the same texts and in the same order. Creating directories does
not disturb them, and neither does writing or removing a file that is not theirs, since in a tree nothing stands below
a file.

## Main definitions

* `Disk.filesAt` — the files at places of some kind
* `Disk.Spares` — a disk and another one with its directories and the same such files

## Main results

* `Disk.Spares.trans` — operations that follow one another
* `Disk.spares_createAll` — directories are created
* `Disk.Holds.spares_writeText`, `Disk.Holds.spares_removeFile` — a file is written or removed
-/

namespace Barrage.Disk

variable {mine : List String → Bool} {disk disk' disk'' : Disk} {place : List String} {dir path name text : String}

/-- The files at places of some kind, in the order of the disk. -/
def filesAt (disk : Disk) (mine : List String → Bool) : List (List String × Entry) :=
  disk.entries.filter fun e => mine e.1 && e.2 != .directory

/-- A disk and another one that has all its directories, and the same files at the places of some kind. -/
structure Spares (mine : List String → Bool) (disk disk' : Disk) : Prop where
  directories : disk.DirectoriesIn disk'
  files : disk'.filesAt mine = disk.filesAt mine

theorem Spares.refl (mine : List String → Bool) (disk : Disk) : Spares mine disk disk := ⟨.refl disk, rfl⟩

theorem Spares.trans (h : Spares mine disk disk') (h' : Spares mine disk' disk'') : Spares mine disk disk'' :=
  ⟨h.directories.trans h'.directories, h'.files.trans h.files⟩

/-! ### Putting and removing -/

/-- An entry is put where none of the files is. -/
theorem spares_put {entry : Entry} (hplace : disk.entry? place ≠ some .directory)
    (hentry : mine place = false ∨ entry = .directory)
    (hold : ∀ e ∈ disk.entries, e.1 = place → mine place = false) : Spares mine disk (disk.put place entry) := by
  refine ⟨directoriesIn_put hplace, ?_⟩
  have hnew : (mine place && entry != .directory) = false := by
    rcases hentry with h | h <;> simp [h]
  rw [filesAt, put, List.filter_cons_of_neg (by simp [hnew]), List.filter_filter, filesAt]
  refine List.filter_congr fun e he => ?_
  by_cases heq : e.1 = place
  · simp [heq, hold e he heq]
  · simp [heq]

/-- A file of a tree is removed that is not among the files. -/
theorem IsTree.spares_remove (hdisk : disk.IsTree) (hplace : disk.entry? place = some (.file text))
    (hmine : mine place = false) : Spares mine disk (disk.remove place) := by
  refine ⟨hdisk.directoriesIn_remove hplace, ?_⟩
  rw [filesAt, Disk.remove, List.filter_filter, filesAt]
  refine List.filter_congr fun e he => ?_
  cases hbelow : Place.below? place e.1 with
  | none => simp
  | some names =>
    obtain ⟨heq, -⟩ := Place.below?_eq_some_iff.1 hbelow
    -- Nothing stands below a file, so what is removed is the file itself.
    have hself : e.1 = place := by
      by_contra hne
      have hdirectory := (hdisk e he).above place ⟨names, heq.symm⟩ (Ne.symm hne)
      rw [hplace] at hdirectory
      cases hdirectory
    simp [hself, hmine]

/-! ### Creating directories -/

theorem spares_create (h : disk.create path = .ok disk') : Spares mine disk disk' := by
  obtain ⟨place, -, hput⟩ := Except.bind_eq_ok_iff.1 h
  split at hput
  · contradiction
  · rename_i hentry
    obtain rfl := Except.ok.inj hput
    have hne : disk.entry? place ≠ some .directory := by simp [hentry]
    refine spares_put hne (.inr rfl) fun e he heq => ?_
    rw [ entry?, if_neg (not_isAnchor_of_ne_directory hne), List.lookup_eq_none_iff] at hentry
    simpa [heq] using hentry e he

theorem spares_createUpward (disk : Disk) (paths : List String) : Spares mine disk (disk.createUpward paths).2 := by
  induction paths generalizing disk with
  | nil => exact .refl mine disk
  | cons path paths ih =>
    rw [Disk.createUpward]
    cases hcreate : disk.create path with
    | ok created => exact spares_create hcreate
    | error e =>
      have habove := ih disk
      cases e
      case notFound =>
        dsimp only
        rcases hup : disk.createUpward paths with ⟨e?, found⟩
        rw [hup] at habove
        cases e? with
        | some e => exact habove
        | none =>
          dsimp only
          cases hagain : found.create path with
          | ok created => exact habove.trans (spares_create hagain)
          | error e => exact habove
      all_goals exact .refl mine disk

theorem spares_createAll (disk : Disk) (path : String) : Spares mine disk (disk.createAll path).2 := by
  rw [Disk.createAll]
  split
  · exact .refl mine disk
  · exact spares_createUpward disk _

/-! ### Files of a directory -/

/-- A file is written whose place, unless it is a directory, is none of those of the files. -/
theorem Holds.spares_writeText (h : disk.Holds dir place) (hname : Path.IsName name)
    (hmine : disk.entry? (place ++ [name]) ≠ some .directory → mine (place ++ [name]) = false)
    (hwrite : disk.writeText (Path.join dir name) text = .ok disk') : Spares mine disk disk' := by
  obtain ⟨below, hresolve, hput⟩ := Except.bind_eq_ok_iff.1 hwrite
  obtain rfl := resolve_join hname h.resolve h.directory hresolve
  split at hput
  · contradiction
  · rename_i hplace
    obtain rfl := Except.ok.inj hput
    exact spares_put hplace (.inl (hmine hplace)) fun _ _ _ => hmine hplace

/-- The same for a file that is removed. -/
theorem Holds.spares_removeFile (h : disk.Holds dir place) (hname : Path.IsName name)
    (hmine : disk.entry? (place ++ [name]) ≠ some .directory → mine (place ++ [name]) = false)
    (hremove : disk.removeFile (Path.join dir name) = .ok disk') : Spares mine disk disk' := by
  obtain ⟨below, hresolve, hremove⟩ := Except.bind_eq_ok_iff.1 hremove
  obtain rfl := resolve_join hname h.resolve h.directory hresolve
  split at hremove
  · contradiction
  · contradiction
  · rename_i text hfile
    obtain rfl := Except.ok.inj hremove
    exact h.tree.spares_remove hfile (hmine (by simp [hfile]))

end Barrage.Disk
