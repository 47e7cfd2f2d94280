import Barrage.Disk

/-!
# Changes of a disk

A run works on a value, and what it did is the difference of two values. The changes come in an order in
which they can be made one after another: files make room, directories are created, files are written.

## Main definitions

* `Disk.Change`: what happens at one path
* `Disk.changesTo`: the changes that lead from one disk to another
-/

namespace Barrage

/-- The written path of a place. -/
def Place.toPath (place : List String) : String :=
  match place with
  | "/" :: names => "/" ++ "/".intercalate names
  | names => "/".intercalate names

namespace Disk

/-- What happens at one path. -/
inductive Change where
  | removeFile (path : String)
  | createDirectory (path : String)
  | writeFile (path text : String)
deriving DecidableEq, Repr

/-- The files that are no longer there. -/
def removed (before after : Disk) : List Change :=
  before.entries.filterMap fun (place, entry) =>
    match entry, after.entry? place with
    | .file _, some (.file _) => none
    | .file _, _ => some (.removeFile (Place.toPath place))
    | .directory, _ => none

/-- The directories that were not there. -/
def created (before after : Disk) : List Change :=
  after.entries.filterMap fun (place, entry) =>
    if entry = .directory && before.entry? place != some .directory then
      some (.createDirectory (Place.toPath place))
    else none

/-- The files that were not there with the text they have. -/
def written (before after : Disk) : List Change :=
  after.entries.filterMap fun (place, entry) =>
    match entry with
    | .file text =>
      if before.entry? place = some entry then none else some (.writeFile (Place.toPath place) text)
    | .directory => none

/-- The changes that lead from one disk to another, as far as no directory was removed. -/
def changesTo (before after : Disk) : List Change :=
  removed before after ++ created before after ++ written before after

/-- A disk that stays as it is takes no change, if it holds one entry for a place. -/
theorem changesTo_self (disk : Disk)
    (single : ∀ e ∈ disk.entries, disk.entry? e.1 = some e.2) : disk.changesTo disk = [] := by
  simp only [changesTo, List.append_eq_nil_iff]
  refine ⟨⟨?_, ?_⟩, ?_⟩ <;> simp only [removed, created, written, List.filterMap_eq_nil_iff] <;>
    rintro ⟨place, entry⟩ mem <;> have found := single _ mem <;> cases entry <;> simp_all

end Disk

end Barrage
