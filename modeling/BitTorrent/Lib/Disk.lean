import BitTorrent.Lib.Paths

/-!
# Files and directories

A place is named by the names that lead to it from the root. In it is nothing, a
directory or a file, and whatever is somewhere is in a directory (`tree`).

`createDirAll` and `write` fail (`none`) where a file stands in the way of a
directory, or a directory in that of a file. When they succeed, `write` has
changed the place that its path leads to and no other (`write_node`), and
`createDirAll` has changed no file (`createDirAll_file`).

This is a disk without links, so two paths lead to one place only by `.`, `..` and
the directory they start from. A path comes as its components, which do not tell
whether it is empty, or ends in a separator or in `.`: `write` writes there what
the operating system refuses to open as a file. Permissions, the room on the disk
and the length of names are not here. Whatever else makes a call fail is a
parameter of those who use the disk.
-/

namespace BitTorrent

/-- What can be in a place. -/
inductive Node
  | dir
  | file (bytes : List UInt8)
  deriving DecidableEq, Repr

/-- What is in each place. -/
structure Disk where
  node : Dir → Option Node
  root : node [] = some .dir
  tree : ∀ dir name, node (dir ++ [name]) ≠ none → node dir = some .dir

namespace Disk

/-- The root alone. -/
def empty : Disk where
  node place := if place = [] then some .dir else none
  root := if_pos rfl
  tree := by
    intro dir name h
    rw [if_neg (List.append_ne_nil_of_right_ne_nil dir (List.cons_ne_nil _ _))] at h
    exact absurd rfl h

/-- Put something into a directory, where no directory is. -/
def put (disk : Disk) (dir : Dir) (name : List Char) (new : Node)
    (hdir : disk.node dir = some .dir) (hname : disk.node (dir ++ [name]) ≠ some .dir) : Disk where
  node place := if place = dir ++ [name] then some new else disk.node place
  root := by
    rw [if_neg (List.append_ne_nil_of_right_ne_nil dir (List.cons_ne_nil _ _)).symm]
    exact disk.root
  tree := by
    intro dir' name' h
    -- nothing is below what is put
    have hold : disk.node dir' = some .dir := by
      split at h
      next heq => rw [(List.append_inj' heq rfl).1, hdir]
      next => exact disk.tree dir' name' h
    rw [if_neg, hold]
    intro heq
    rw [heq] at hold
    exact hname hold

/-- `fs::create_dir`: the place has to be free, and in a directory. -/
def mkdir (disk : Disk) (dir : Dir) (name : List Char) : Option Disk :=
  if h : disk.node dir = some .dir ∧ disk.node (dir ++ [name]) = none then
    some (disk.put dir name .dir h.1 (by rw [h.2]; nofun))
  else none

/-- `fs::create_dir_all`, from the directory `dir` on. -/
def createDirAll (disk : Disk) (dir : Dir) : List Component → Option Disk
  | [] => some disk
  | c :: cs =>
    if disk.node (enter dir c) = some .dir then disk.createDirAll (enter dir c) cs
    else
      match c with
      | .normal name => (disk.mkdir dir name).bind fun disk => disk.createDirAll (dir ++ [name]) cs
      | _ => none

/-- Every place on the way is a directory. -/
def leads (disk : Disk) (dir : Dir) : List Component → Bool
  | [] => disk.node dir = some .dir
  | c :: cs => disk.node (enter dir c) = some .dir && disk.leads (enter dir c) cs

theorem node_of_leads {disk : Disk} {cs : List Component} {dir : Dir}
    (h : disk.leads dir cs = true) : disk.node (resolve dir cs) = some .dir := by
  induction cs generalizing dir with
  | nil => exact of_decide_eq_true h
  | cons c cs ih => exact ih (Bool.and_eq_true_iff.mp h).2

/-- `fs::write`. The last component is the name of the file, the others lead to its
directory. What was in the file before is gone. -/
def write (disk : Disk) (cwd : Dir) (path : List Component) (bytes : List UInt8) : Option Disk :=
  match path.getLast? with
  | some (.normal name) =>
    let dir := resolve cwd path.dropLast
    if h : disk.leads cwd path.dropLast = true ∧ disk.node (dir ++ [name]) ≠ some .dir then
      some (disk.put dir name (.file bytes) (node_of_leads h.1) h.2)
    else none
  | _ => none

/-- What can be read in a place. -/
def read (disk : Disk) (place : Dir) : List UInt8 :=
  match disk.node place with
  | some (.file bytes) => bytes
  | _ => []

section Effects

variable {disk disk' : Disk} {dir cwd place : Dir} {name : List Char} {path cs : List Component}
  {bytes contents : List UInt8}

theorem read_of_node (h : disk.node place = some (.file bytes)) : disk.read place = bytes := by
  unfold read
  rw [h]

/-- A new directory leaves the files alone. -/
theorem mkdir_file (h : disk.mkdir dir name = some disk')
    (hfile : disk.node place = some (.file contents)) :
    disk'.node place = some (.file contents) := by
  unfold mkdir at h
  split at h
  next hnew =>
    obtain rfl := Option.some.inj h
    show (if place = dir ++ [name] then _ else disk.node place) = _
    rw [if_neg, hfile]
    intro heq
    rw [heq, hnew.2] at hfile
    cases hfile
  next => cases h

/-- The files stay what they are. -/
theorem createDirAll_file :
    ∀ {cs : List Component} {disk : Disk} {dir : Dir}, disk.createDirAll dir cs = some disk' →
      disk.node place = some (.file contents) → disk'.node place = some (.file contents) := by
  intro cs
  induction cs with
  | nil =>
    intro disk dir h hfile
    rw [← Option.some.inj h]
    exact hfile
  | cons c cs ih =>
    intro disk dir h hfile
    unfold createDirAll at h
    split at h
    next => exact ih h hfile
    next =>
      cases c with
      | normal name =>
        obtain ⟨disk₁, hmkdir, h⟩ := Option.bind_eq_some_iff.mp h
        exact ih h (mkdir_file hmkdir hfile)
      | rootDir => cases h
      | curDir => cases h
      | parentDir => cases h

/-- The place that the path leads to has the bytes, and nothing else has changed. -/
theorem write_node (h : disk.write cwd path bytes = some disk') (place : Dir) :
    disk'.node place =
      if place = resolve cwd path then some (.file bytes) else disk.node place := by
  unfold write at h
  split at h
  next name hlast =>
    obtain ⟨cs, rfl⟩ := List.getLast?_eq_some_iff.mp hlast
    have hplace : resolve cwd (cs ++ [Component.normal name]) = resolve cwd cs ++ [name] :=
      List.foldl_append
    simp only [List.dropLast_concat] at h
    rw [hplace]
    split at h
    next =>
      obtain rfl := Option.some.inj h
      rfl
    next => cases h
  next => cases h

end Effects

end Disk

end BitTorrent
