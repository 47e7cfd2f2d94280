import Barrage.Proofs.Disk.Paths
import Barrage.Proofs.Expr.Trees

/-!
# Disks as trees

The entries of a disk form a tree: what stands above an entry is a directory, and files have nothing below them. The
operations keep it so, since a path leads only through directories. So removing or replacing a file changes nothing at
any other place, and creating directories changes no file.

## Main definitions

* `Place.Named` — places whose names below the working directory, or below where they start, are names of files
* `Disk.Founded` — places with directories above them
* `Disk.IsTree` — disks whose entries are at founded places
* `Disk.textAt?` — the text of the file at a place
* `Disk.AddsDirectories` — a disk and another with more directories

## Main results

* `Disk.founded_of_resolve` — a path leads to a founded place
* `Disk.IsTree.entry?_remove` — removing a file changes nothing else
* `Disk.IsTree.createAll` — creating directories keeps the tree and every file
-/

namespace Barrage

namespace Place

variable {place above names : List String} {name : String}

/-- Places that are named by names of files, once they have left the directories that always exist. -/
def Named (place : List String) : Prop :=
  ∃ anchor names, isAnchor anchor = true ∧ (∀ name ∈ names, Path.IsName name) ∧ place = anchor ++ names

theorem isAnchor_iff : isAnchor place = true ↔ place = ["/"] ∨ ∀ name ∈ place, name = ".." := by
  simp [isAnchor]

theorem isAnchor_of_prefix (h : isAnchor place = true) (hfront : above <+: place) : isAnchor above = true := by
  rw [isAnchor_iff] at h ⊢
  rcases h with rfl | hdots
  · rcases List.prefix_cons_iff.1 hfront with rfl | ⟨rest, rfl, hrest⟩
    · exact .inr fun _ hmem => absurd hmem List.not_mem_nil
    · exact .inl (by rw [List.prefix_nil.1 hrest])
  · exact .inr fun name hname => hdots name (hfront.subset hname)

theorem named_of_isAnchor (h : isAnchor place = true) : Named place :=
  ⟨place, [], h, fun _ hmem => absurd hmem List.not_mem_nil, (List.append_nil place).symm⟩

theorem Named.concat (h : Named place) (hname : Path.IsName name) : Named (place ++ [name]) := by
  obtain ⟨anchor, names, hanchor, hnames, rfl⟩ := h
  refine ⟨anchor, names ++ [name], hanchor, fun n hn => ?_, List.append_assoc ..⟩
  rcases List.mem_append.1 hn with hmem | hmem
  · exact hnames n hmem
  · exact List.mem_singleton.1 hmem ▸ hname

theorem not_isAnchor_concat (hdots : name ≠ "..") (htop : name ≠ "/") : ¬isAnchor (place ++ [name]) = true := by
  rw [isAnchor_iff]
  rintro (heq | hall)
  · obtain ⟨-, hlast⟩ := List.append_inj' (heq.trans (List.nil_append ["/"]).symm) rfl
    exact htop (List.cons.inj hlast).1
  · exact hdots (hall name (by simp))

/-- The last name of a place is the name of a file, unless the place always exists. -/
theorem Named.isName (h : Named (place ++ [name])) (hanchor : ¬isAnchor (place ++ [name]) = true) :
    Path.IsName name := by
  obtain ⟨anchor, names, hstart, hnames, heq⟩ := h
  rcases List.eq_nil_or_concat names with rfl | ⟨before, last, rfl⟩
  · rw [List.append_nil] at heq
    exact absurd (heq ▸ hstart) hanchor
  · rw [List.concat_eq_append, ← List.append_assoc] at heq
    obtain ⟨-, hlast⟩ := List.append_inj' heq rfl
    exact hnames name (by simp [List.cons.inj hlast])

/-- The place above one that always exists is another such place. -/
theorem isAnchor_up (h : isAnchor place = true) : isAnchor (up place) = true := by
  rw [Place.up]
  split
  · exact h
  · rename_i htop
    have hdots := (isAnchor_iff.1 h).resolve_left htop
    refine isAnchor_iff.2 (.inr fun name hname => (List.mem_append.1 hname).elim (hdots name) List.mem_singleton.1)

/-- The place above one that does not always exist lacks its last name. -/
theorem up_of_not_isAnchor (h : ¬isAnchor place = true) : up place = place.dropLast := by
  rw [Place.up, if_neg fun heq => h (isAnchor_iff.2 (.inl heq)), if_neg h]

theorem Named.up (h : Named place) : Named (up place) := by
  by_cases hanchor : isAnchor place = true
  · exact named_of_isAnchor (isAnchor_up hanchor)
  · rw [up_of_not_isAnchor hanchor]
    obtain ⟨anchor, names, hstart, hnames, rfl⟩ := h
    rcases List.eq_nil_or_concat names with rfl | ⟨before, last, rfl⟩
    · exact absurd ((List.append_nil anchor).symm ▸ hstart) hanchor
    · refine ⟨anchor, before, hstart, fun name hname => hnames name (by simp [hname]), ?_⟩
      rw [List.concat_eq_append, ← List.append_assoc, List.dropLast_concat]

theorem below?_eq_some_iff {here : List String} : below? here place = some names ↔
    place = here ++ names ∧ names.head? ≠ some ".." ∧ names.head? ≠ some "/" := by
  rw [below?]
  constructor
  · intro h
    split at h
    · rename_i hfront
      obtain ⟨rest, rfl⟩ := List.isPrefixOf_iff_prefix.1 hfront
      rw [List.drop_left] at h
      simp only [Option.ite_none_left_eq_some, Option.some.injEq, Bool.or_eq_true, decide_eq_true_eq, not_or] at h
      obtain ⟨hhead, rfl⟩ := h
      exact ⟨rfl, hhead⟩
    · contradiction
  · rintro ⟨rfl, hdots, htop⟩
    simp [hdots, htop]

end Place

namespace Disk

variable {disk disk' : Disk} {place above other here names : List String} {entry : Entry} {name path : String}

/-! ### Entries -/

theorem entry?_of_isAnchor (h : Place.isAnchor place = true) : disk.entry? place = some .directory := by
  rw [ entry?, if_pos h]

theorem not_isAnchor_of_ne_directory (h : disk.entry? place ≠ some .directory) : ¬Place.isAnchor place = true :=
  fun hanchor => h (entry?_of_isAnchor hanchor)

theorem mem_of_entry? (hanchor : ¬Place.isAnchor place = true) (h : disk.entry? place = some entry) :
    (place, entry) ∈ disk.entries := by
  rw [ entry?, if_neg hanchor] at h
  obtain ⟨before, after, heq, -⟩ := List.lookup_eq_some_iff.1 h
  simp [heq]

/-- An association list from which the entries of some keys were dropped. -/
theorem lookup_filter (keep : List String → Bool) (entries : List (List String × Entry)) (place : List String) :
    (entries.filter fun e => keep e.1).lookup place = if keep place then entries.lookup place else none := by
  induction entries with
  | nil => simp
  | cons e entries ih =>
    obtain ⟨known, entry⟩ := e
    by_cases hplace : place = known
    · subst hplace
      cases hkeep : keep place <;> simp [hkeep, ih]
    · have hself : (place == known) = false := by simpa using hplace
      cases hkeep : keep known <;> simp [List.lookup_cons, hkeep, hself, ih]

/-- What is at a place after an entry was put somewhere. -/
theorem entry?_put (hanchor : ¬Place.isAnchor place = true) :
    entry? (disk.put place entry) other = if other = place then some entry else disk.entry? other := by
  by_cases hother : Place.isAnchor other = true
  · have hne : other ≠ place := fun heq => hanchor (heq ▸ hother)
    rw [entry?_of_isAnchor hother, if_neg hne, entry?_of_isAnchor hother]
  · have hlookup := lookup_filter (· != place) disk.entries other
    rw [ entry?, if_neg hother, entry?, if_neg hother, put, List.lookup_cons, hlookup]
    by_cases hself : other = place
    · simp [hself]
    · have hne : (other == place) = false := by simpa using hself
      simp [hself, hne]

/-! ### Trees -/

/-- Places that are named by names of files and have directories above them. -/
structure Founded (disk : Disk) (place : List String) : Prop where
  named : Place.Named place
  above : ∀ above, above <+: place → above ≠ place → disk.entry? above = some .directory

/-- Disks whose entries are at founded places. -/
def IsTree (disk : Disk) : Prop := ∀ e ∈ disk.entries, disk.Founded e.1

theorem Founded.mono (h : disk.Founded place) (hin : disk.DirectoriesIn disk') : disk'.Founded place :=
  ⟨h.named, fun above hfront hne => hin above (h.above above hfront hne)⟩

theorem founded_of_isAnchor (h : Place.isAnchor place = true) : disk.Founded place :=
  ⟨Place.named_of_isAnchor h, fun _ hfront _ => entry?_of_isAnchor (Place.isAnchor_of_prefix h hfront)⟩

theorem Founded.concat (h : disk.Founded place) (hplace : disk.entry? place = some .directory)
    (hname : Path.IsName name) : disk.Founded (place ++ [name]) := by
  refine ⟨h.named.concat hname, fun above hfront hne => ?_⟩
  rcases List.prefix_concat_iff.1 hfront with heq | hfront
  · exact absurd heq hne
  · by_cases heq : above = place
    · exact heq ▸ hplace
    · exact h.above above hfront heq

/-- The place above a founded one is a founded directory. -/
theorem Founded.up (h : disk.Founded place) :
    disk.Founded (Place.up place) ∧ disk.entry? (Place.up place) = some .directory := by
  by_cases hanchor : Place.isAnchor place = true
  · have hup := Place.isAnchor_up hanchor
    exact ⟨founded_of_isAnchor hup, entry?_of_isAnchor hup⟩
  · have hup := Place.up_of_not_isAnchor hanchor
    have hnil : place ≠ [] := fun heq => hanchor (heq ▸ rfl)
    have hne : place.dropLast ≠ place := fun heq => by
      have hlength := congrArg List.length heq
      have hpos := List.length_pos_iff.2 hnil
      rw [List.length_dropLast] at hlength
      omega
    rw [hup]
    refine ⟨⟨hup ▸ h.named.up, fun above hfront _ => ?_⟩, h.above _ (List.dropLast_prefix place) hne⟩
    have hle := hfront.trans (List.dropLast_prefix place)
    refine h.above above hle fun heq => hne ?_
    exact (List.dropLast_prefix place).eq_of_length_le (heq ▸ hfront).length_le

/-- Following names from a founded directory leads to a founded place. -/
theorem Founded.follow (h : disk.Founded here) (hhere : disk.entry? here = some .directory)
    (hnames : ∀ name ∈ names, name ≠ "" ∧ '/' ∉ name.toList) (hfollow : disk.follow here names = .ok place) :
    disk.Founded place := by
  induction names generalizing here with
  | nil =>
    obtain rfl : here = place := by simpa [Disk.follow] using hfollow
    exact h
  | cons name names ih =>
    have hrest : ∀ name ∈ names, name ≠ "" ∧ '/' ∉ name.toList := fun n hn => hnames n (List.mem_cons_of_mem name hn)
    rcases follow_cons_iff.1 hfollow with ⟨-, hfollow⟩ | ⟨-, hfollow⟩ | ⟨hdot, hdots, -, hlast⟩
    · exact ih h hhere hrest hfollow
    · exact ih h.up.1 h.up.2 hrest hfollow
    · obtain ⟨hne, hslash⟩ := hnames name List.mem_cons_self
      have hnext : disk.Founded (here ++ [name]) := h.concat hhere ⟨hne, hslash, hdot, hdots⟩
      rcases hlast with ⟨-, rfl⟩ | ⟨-, hentry, hfollow⟩
      · exact hnext
      · exact ih hnext hentry hrest hfollow

/-- A path leads to a founded place. -/
theorem founded_of_resolve (h : disk.resolve path = .ok place) : disk.Founded place := by
  obtain ⟨-, -, -, hfollow⟩ := resolve_eq_ok_iff.1 h
  have hstart : Place.isAnchor (start path) = true := by
    rw [start]
    split <;> rfl
  refine (founded_of_isAnchor hstart).follow (entry?_of_isAnchor hstart) (fun name hname => ?_) hfollow
  have hmem : name ∈ Path.names path ∨ name = "." := by
    rw [Path.steps] at hname
    split at hname
    · exact (List.mem_append.1 hname).imp_right List.mem_singleton.1
    · exact .inl hname
  rcases hmem with hmem | rfl
  · exact ⟨Path.nonempty_of_mem_names hmem, Path.noSlash_of_mem_names hmem⟩
  · decide

/-! ### Putting and removing -/

/-- A disk on which an entry was put has the directories it had, unless the entry takes the place of one. -/
theorem directoriesIn_put (h : disk.entry? place ≠ some .directory) : disk.DirectoriesIn (disk.put place entry) := by
  intro other hother
  have hne : other ≠ place := fun heq => h (heq ▸ hother)
  rw [entry?_put (not_isAnchor_of_ne_directory h), if_neg hne]
  exact hother

theorem IsTree.put (hdisk : disk.IsTree) (hplace : disk.Founded place) (h : disk.entry? place ≠ some .directory)
    (entry : Entry) : (disk.put place entry).IsTree := by
  intro e he
  have hin : disk.DirectoriesIn (disk.put place entry) := directoriesIn_put h
  rcases List.mem_cons.1 he with rfl | hmem
  · exact hplace.mono hin
  · exact (hdisk e (List.mem_of_mem_filter hmem)).mono hin

/-- Removing a file of a tree changes nothing at any other place. -/
theorem IsTree.entry?_remove (hdisk : disk.IsTree) {text : String} (h : disk.entry? place = some (.file text)) :
    entry? (disk.remove place) other = if other = place then none else disk.entry? other := by
  have hfile : disk.entry? place ≠ some .directory := by simp [h]
  have hanchor := not_isAnchor_of_ne_directory hfile
  by_cases hother : Place.isAnchor other = true
  · have hne : other ≠ place := fun heq => hanchor (heq ▸ hother)
    rw [entry?_of_isAnchor hother, if_neg hne, entry?_of_isAnchor hother]
  have hlookup := lookup_filter (fun p => (Place.below? place p).isNone) disk.entries other
  rw [ entry?, if_neg hother, Disk.remove, hlookup, entry?, if_neg hother]
  by_cases hself : other = place
  · have hbelow : Place.below? place place = some [] := Place.below?_eq_some_iff.2 (by simp)
    simp [hself, hbelow]
  rw [if_neg hself]
  split
  · rfl
  -- What is removed beside the file stands below it, and nothing does.
  · rename_i hbelow
    obtain ⟨names, hnames⟩ := Option.ne_none_iff_exists'.1 fun hnone => hbelow (Option.isNone_iff_eq_none.2 hnone)
    obtain ⟨heq, -⟩ := Place.below?_eq_some_iff.1 hnames
    refine (Option.eq_none_iff_forall_not_mem.2 fun found hfound => ?_).symm
    have hentry : disk.entry? other = some found := by
      rw [ entry?, if_neg hother]
      exact hfound
    have hmem := mem_of_entry? hother hentry
    have hfront : place <+: other := ⟨names, heq.symm⟩
    have hdirectory := (hdisk _ hmem).above place hfront (Ne.symm hself)
    rw [h] at hdirectory
    cases hdirectory

theorem IsTree.directoriesIn_remove (hdisk : disk.IsTree) {text : String} (h : disk.entry? place = some (.file text)) :
    disk.DirectoriesIn (disk.remove place) := by
  intro other hother
  have hne : other ≠ place := fun heq => by
    rw [heq, h] at hother
    cases hother
  rw [hdisk.entry?_remove h, if_neg hne]
  exact hother

theorem IsTree.remove (hdisk : disk.IsTree) {text : String} (h : disk.entry? place = some (.file text)) :
    (disk.remove place).IsTree :=
  fun e he => (hdisk e (List.mem_of_mem_filter he)).mono (hdisk.directoriesIn_remove h)

/-! ### Creating directories -/

/-- The text of the file at a place. -/
def textAt? (disk : Disk) (place : List String) : Option String :=
  match disk.entry? place with
  | some (.file text) => some text
  | _ => none

/-- A disk and another that has more directories, but no other files. -/
def AddsDirectories (disk disk' : Disk) : Prop := ∀ place,
  disk'.entry? place = disk.entry? place ∨ disk.entry? place = none ∧ disk'.entry? place = some .directory

theorem AddsDirectories.refl (disk : Disk) : disk.AddsDirectories disk := fun _ => .inl rfl

theorem AddsDirectories.trans {disk'' : Disk} (h : disk.AddsDirectories disk') (h' : disk'.AddsDirectories disk'') :
    disk.AddsDirectories disk'' := by
  intro place
  rcases h place with heq | ⟨hnone, hnew⟩
  · exact heq ▸ h' place
  · rcases h' place with heq' | ⟨hnone', -⟩
    · exact .inr ⟨hnone, heq'.trans hnew⟩
    · rw [hnew] at hnone'
      cases hnone'

theorem AddsDirectories.textAt? (h : disk.AddsDirectories disk') (place : List String) :
    disk'.textAt? place = disk.textAt? place := by
  rcases h place with heq | ⟨hnone, hnew⟩
  · rw [Disk.textAt?, heq, Disk.textAt?]
  · rw [Disk.textAt?, hnew, Disk.textAt?, hnone]

theorem IsTree.create (hdisk : disk.IsTree) (h : disk.create path = .ok disk') :
    disk'.IsTree ∧ disk.AddsDirectories disk' := by
  obtain ⟨place, hresolve, hput⟩ := Except.bind_eq_ok_iff.1 h
  split at hput
  · contradiction
  · rename_i hentry
    obtain rfl := Except.ok.inj hput
    have hnew : disk.entry? place ≠ some .directory := by simp [hentry]
    refine ⟨hdisk.put (founded_of_resolve hresolve) hnew .directory, fun other => ?_⟩
    rw [entry?_put (not_isAnchor_of_ne_directory hnew)]
    by_cases heq : other = place
    · exact .inr ⟨heq ▸ hentry, if_pos heq⟩
    · exact .inl (if_neg heq)

theorem IsTree.createUpward (hdisk : disk.IsTree) (paths : List String) :
    (disk.createUpward paths).2.IsTree ∧ disk.AddsDirectories (disk.createUpward paths).2 := by
  induction paths generalizing disk with
  | nil => exact ⟨hdisk, .refl disk⟩
  | cons path paths ih =>
    rw [Disk.createUpward]
    cases hcreate : disk.create path with
    | ok created => exact hdisk.create hcreate
    | error e =>
      obtain ⟨htree, hadds⟩ := ih hdisk
      cases e
      case notFound =>
        dsimp only
        rcases hup : disk.createUpward paths with ⟨e?, found⟩
        rw [hup] at htree hadds
        cases e? with
        | some e => exact ⟨htree, hadds⟩
        | none =>
          dsimp only
          cases hagain : found.create path with
          | ok created =>
            obtain ⟨htree', hadds'⟩ := htree.create hagain
            exact ⟨htree', hadds.trans hadds'⟩
          | error e => exact ⟨htree, hadds⟩
      all_goals exact ⟨hdisk, .refl disk⟩

/-- Creating directories keeps the tree and every file. -/
theorem IsTree.createAll (hdisk : disk.IsTree) (path : String) :
    (disk.createAll path).2.IsTree ∧ disk.AddsDirectories (disk.createAll path).2 := by
  rw [Disk.createAll]
  split
  · exact ⟨hdisk, .refl disk⟩
  · exact hdisk.createUpward _

end Disk

end Barrage
