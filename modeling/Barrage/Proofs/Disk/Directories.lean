import Barrage.Proofs.Disk.Trees

/-!
# The files of a directory

A program that writes and removes files in one directory names them by the path of the directory joined with their
names. As long as the disk is a tree, every such operation changes what is under one name and nothing else, so the
path of the directory goes on leading to it, and a file that was written is read under the path it was written under.

## Main definitions

* `Disk.Holds` — a path leads to a directory of a tree

## Main results

* `Disk.Holds.list` — the names that are listed are those that have an entry
* `Disk.Holds.writeText`, `Disk.Holds.removeFile` — what writing and removing a file changes
* `Disk.readText_of_resolve` — what a path leads to is read under it
-/

namespace Barrage.Disk

variable {disk disk' : Disk} {dir path name text : String} {place other : List String}

/-- A path leads to a directory of a tree. -/
structure Holds (disk : Disk) (dir : String) (place : List String) : Prop where
  tree : disk.IsTree
  resolve : disk.resolve dir = .ok place
  directory : disk.entry? place = some .directory

/-- The directory stays where it is while files come and go. -/
theorem Holds.mono (h : disk.Holds dir place) (htree : disk'.IsTree) (hin : disk.DirectoriesIn disk') :
    disk'.Holds dir place :=
  ⟨htree, hin.resolve h.resolve, hin place h.directory⟩

/-- What can be listed is a directory. -/
theorem IsTree.holds_of_list {names : List String} (hdisk : disk.IsTree) (hlist : disk.list dir = .ok names) :
    ∃ place, disk.Holds dir place := by
  obtain ⟨place, hresolve, hlist⟩ := Except.bind_eq_ok_iff.1 hlist
  refine ⟨place, hdisk, hresolve, ?_⟩
  split at hlist
  · contradiction
  · contradiction
  · assumption

/-- The names that are listed are names of files, and every name with an entry is listed. -/
theorem Holds.list {names : List String} (h : disk.Holds dir place) (hlist : disk.list dir = .ok names) :
    (∀ name ∈ names, Path.IsName name) ∧
      ∀ name, name ≠ ".." → name ≠ "/" → disk.entry? (place ++ [name]) ≠ none → name ∈ names := by
  obtain ⟨place', hresolve, hlist⟩ := Except.bind_eq_ok_iff.1 hlist
  obtain rfl : place = place' := Except.ok.inj (h.resolve.symm.trans hresolve)
  rw [h.directory] at hlist
  obtain rfl := Except.ok.inj hlist
  simp only [sortNames, List.mem_mergeSort, List.mem_filterMap]
  constructor
  · rintro name ⟨⟨found, entry⟩, hmem, hbelow⟩
    obtain ⟨rfl, hdots, htop⟩ : found = place ++ [name] ∧ name ≠ ".." ∧ name ≠ "/" := by
      split at hbelow
      · rename_i hnames
        obtain rfl := Option.some.inj hbelow
        simpa using Place.below?_eq_some_iff.1 hnames
      · contradiction
    exact (h.tree _ hmem).named.isName (Place.not_isAnchor_concat hdots htop)
  · intro name hdots htop hentry
    obtain ⟨entry, hentry⟩ := Option.ne_none_iff_exists'.1 hentry
    have hbelow : Place.below? place (place ++ [name]) = some [name] :=
      Place.below?_eq_some_iff.2 ⟨rfl, by simpa using hdots, by simpa using htop⟩
    have hmem := mem_of_entry? (Place.not_isAnchor_concat hdots htop) hentry
    exact ⟨_, hmem, by simp only [hbelow]⟩

theorem Holds.writeText (h : disk.Holds dir place) (hname : Path.IsName name)
    (hwrite : disk.writeText (Path.join dir name) text = .ok disk') :
    disk'.Holds dir place ∧ disk'.resolve (Path.join dir name) = .ok (place ++ [name]) ∧
      disk.DirectoriesIn disk' ∧
      ∀ other, disk'.entry? other = if other = place ++ [name] then some (.file text) else disk.entry? other := by
  obtain ⟨below, hresolve, hput⟩ := Except.bind_eq_ok_iff.1 hwrite
  obtain rfl := resolve_join hname h.resolve h.directory hresolve
  have hplace : disk.entry? (place ++ [name]) ≠ some .directory := fun hdirectory => by
    rw [hdirectory] at hput
    cases hput
  obtain rfl : disk.put (place ++ [name]) (.file text) = disk' := by
    split at hput
    · contradiction
    · exact Except.ok.inj hput
  have hin : disk.DirectoriesIn (disk.put (place ++ [name]) (.file text)) := directoriesIn_put hplace
  have htree := h.tree.put (founded_of_resolve hresolve) hplace (.file text)
  exact ⟨h.mono htree hin, hin.resolve hresolve, hin, fun other => entry?_put (not_isAnchor_of_ne_directory hplace)⟩

theorem Holds.removeFile (h : disk.Holds dir place) (hname : Path.IsName name)
    (hremove : disk.removeFile (Path.join dir name) = .ok disk') :
    disk'.Holds dir place ∧ disk.DirectoriesIn disk' ∧
      ∀ other, disk'.entry? other = if other = place ++ [name] then none else disk.entry? other := by
  obtain ⟨below, hresolve, hremove⟩ := Except.bind_eq_ok_iff.1 hremove
  obtain rfl := resolve_join hname h.resolve h.directory hresolve
  split at hremove
  · contradiction
  · contradiction
  · rename_i text hfile
    obtain rfl := Except.ok.inj hremove
    have hin := h.tree.directoriesIn_remove hfile
    exact ⟨h.mono (h.tree.remove hfile) hin, hin, fun other => h.tree.entry?_remove hfile⟩

/-- What a path leads to is read under it. -/
theorem readText_of_resolve (hresolve : disk.resolve path = .ok place)
    (hfile : disk.entry? place = some (.file text)) : disk.readText path = .ok text := by
  simp [readText, find, hresolve, hfile, bind, Except.bind]

end Barrage.Disk
