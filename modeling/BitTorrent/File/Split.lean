import BitTorrent.File.Write
import BitTorrent.Lib.Disk
import BitTorrent.Lib.Run

/-!
# What is on the disk when the download is written (`file/mod.rs`)

The calls of `write`, made on a `Disk`: a call succeeds if the disk and the
environment let it. The files share the bytes out among them in the order of the
torrent (`HasParts`). When `write` returns `Ok`, each file has its part, if the paths
lead to different places, and reading them in order gives the download back
(`write_splits`).

Different paths are not enough. `a` and `x/../a` lead to the same place, and the
second file replaces the first (`second_replaces_first`).

The file system that `write` is given is made from the disk (`fsOn`), so the two
agree on which calls succeed, and the environment may let any call fail besides. A
call changes one place (`Disk.write_node`), or makes directories and leaves the
files alone (`Disk.createDirAll_file`). So what a file was given it keeps, as long
as no later one leads to its place.

It does not matter what was on the disk before. A file that stands where one of the
torrent is written is replaced, and a directory there makes the call fail.
-/

namespace BitTorrent

/-- A call on a disk. -/
def applyOp (cwd : Dir) (disk : Disk) : FsOp → Option Disk
  | .createDirAll path => disk.createDirAll cwd path
  | .write path bytes => disk.write cwd path bytes

/-- The file system over a disk. The environment may let any call fail. -/
def fsOn (cwd : Dir) (disk : Disk) (allows : Fs) : Fs := fun ops op =>
  allows ops op && (run (applyOp cwd) disk (ops ++ [op])).isSome

/-- Where a file is written. -/
def place (cwd : Dir) (output : PathBuf) (f : File) : Dir :=
  resolve cwd (output.join (makeFilePath f.path)).components

/-- From `idx` on, the files have the bytes one after the other. -/
def HasParts (disk : Disk) (cwd : Dir) (output : PathBuf) (bytes : List UInt8) :
    List File → Nat → Prop
  | [], _ => True
  | f :: files, idx =>
    disk.node (place cwd output f) = some (.file ((bytes.take (idx + f.length)).drop idx)) ∧
      HasParts disk cwd output bytes files (idx + f.length)

/-- What is written ends with an error of the file system, or every call was made
and `P` holds of the disk after them. -/
def Ends (cwd : Dir) (disk : Disk) (P : Disk → Prop) (w : Written) : Prop :=
  w.result = .ioError ∨
    w.result = .ok ∧ ∃ disk', run (applyOp cwd) disk w.ops = some disk' ∧ P disk'

/-! ## The calls -/

section Calls

variable {cwd : Dir} {disk disk₁ : Disk} {allows : Fs} {P : Disk → Prop} {ops : List FsOp}
  {p : Profile} {path output : PathBuf} {bytes : List UInt8}

/-- A call that succeeds, and what follows. -/
theorem attempt_ends {op : FsOp} {next : List FsOp → Written}
    (hran : run (applyOp cwd) disk ops = some disk₁)
    (hnext : ∀ disk₂, applyOp cwd disk₁ op = some disk₂ →
      run (applyOp cwd) disk (ops ++ [op]) = some disk₂ → Ends cwd disk P (next (ops ++ [op]))) :
    Ends cwd disk P (attempt (fsOn cwd disk allows) ops op next) := by
  unfold attempt
  split
  next hok =>
    obtain ⟨disk₂, hran₂⟩ := Option.isSome_iff_exists.mp (Bool.and_eq_true_iff.mp hok).2
    have hstep := hran₂
    rw [run_append hran] at hstep
    obtain ⟨disk₃, hop, hdone⟩ := run_cons hstep
    obtain rfl : disk₃ = disk₂ := Option.some.inj hdone
    exact hnext disk₃ hop hran₂
  next => exact .inl rfl

/-- The directory is created, if there is one, and what follows. -/
theorem createParent_ends {next : List FsOp → Written}
    (hran : run (applyOp cwd) disk ops = some disk₁)
    (hnext : ∀ ops' disk₂, run (applyOp cwd) disk ops' = some disk₂ →
      (∀ q b, disk₁.node q = some (.file b) → disk₂.node q = some (.file b)) →
      Ends cwd disk P (next ops')) :
    Ends cwd disk P (createParent (fsOn cwd disk allows) ops path next) := by
  unfold createParent
  cases parent path.components with
  | none => exact hnext ops disk₁ hran fun _ _ hfile => hfile
  | some dir =>
    refine attempt_ends hran ?_
    intro disk₂ hop hran₂
    exact hnext _ disk₂ hran₂ fun _ _ hfile => Disk.createDirAll_file hop hfile

/-- The slice is in range. -/
theorem writePart_ends {idx length : Nat} {next : Nat → List FsOp → Written}
    (hran : run (applyOp cwd) disk ops = some disk₁) (hvec : bytes.length < 2 ^ 63)
    (hlen : idx + length ≤ bytes.length)
    (hnext : ∀ ops' disk₂, run (applyOp cwd) disk ops' = some disk₂ →
      (∀ q, disk₂.node q =
        if q = resolve cwd path.components then
          some (.file ((bytes.take (idx + length)).drop idx))
        else disk₁.node q) →
      Ends cwd disk P (next (idx + length) ops')) :
    Ends cwd disk P (writePart p (fsOn cwd disk allows) ops path bytes idx length next) := by
  unfold writePart
  rw [p.add_of_lt (by omega)]
  dsimp only
  rw [if_pos (by omega)]
  refine attempt_ends hran ?_
  intro disk₂ hop hran₂
  exact hnext _ disk₂ hran₂ (Disk.write_node hop)

/-- What a file has is not changed by the files behind it, unless one of them is
written to the same place. -/
theorem writeFiles_ends (hvec : bytes.length < 2 ^ 63) :
    ∀ {files : List File} {idx : Nat} {ops : List FsOp} {disk₁ : Disk},
      run (applyOp cwd) disk ops = some disk₁ → idx + filesLength files ≤ bytes.length →
      Ends cwd disk
        (fun disk' =>
          (∀ q b, q ∉ files.map (place cwd output) → disk₁.node q = some (.file b) →
            disk'.node q = some (.file b)) ∧
          ((files.map (place cwd output)).Nodup → HasParts disk' cwd output bytes files idx))
        (writeFiles p (fsOn cwd disk allows) output bytes files idx ops) := by
  intro files
  induction files with
  | nil =>
    intro idx ops disk₁ hran _
    exact .inr ⟨rfl, disk₁, hran, fun _ _ _ hfile => hfile, fun _ => trivial⟩
  | cons f files ih =>
    intro idx ops disk₁ hran hlen
    rw [filesLength] at hlen
    unfold writeFiles
    refine createParent_ends hran ?_
    intro ops₂ disk₂ hran₂ hdirs
    refine writePart_ends hran₂ hvec (by omega) ?_
    intro ops₃ disk₃ hran₃ hwrite
    rcases @ih (idx + f.length) ops₃ disk₃ hran₃ (by omega) with
      herror | ⟨hok, disk', hran', hkeep, hholds⟩
    · exact .inl herror
    · refine .inr ⟨hok, disk', hran', ?_, ?_⟩
      · intro q b hq hfile
        rw [List.map_cons, List.mem_cons, not_or] at hq
        refine hkeep q b hq.2 ?_
        rw [hwrite q, if_neg (show ¬ q = resolve cwd _ from hq.1)]
        exact hdirs q b hfile
      · intro hnodup
        rw [List.map_cons, List.nodup_cons] at hnodup
        refine ⟨hkeep _ _ hnodup.1 ?_, hholds hnodup.2⟩
        exact (hwrite _).trans (if_pos rfl)

end Calls

/-! ## The files -/

section Files

variable {cwd : Dir} {disk : Disk} {output : PathBuf} {bytes : List UInt8}

/-- Each of the files has its part of the bytes. -/
theorem HasParts.get {f : File} :
    ∀ {files : List File} {idx k : Nat}, HasParts disk cwd output bytes files idx →
      files[k]? = some f →
      disk.node (place cwd output f) =
        some (.file ((bytes.drop (idx + filesLength (files.take k))).take f.length)) := by
  intro files
  induction files with
  | nil => intro idx k _ hk; cases hk
  | cons f' files ih =>
    intro idx k h hk
    cases k with
    | zero =>
      obtain rfl : f' = f := Option.some.inj hk
      rw [h.1, List.drop_take, Nat.add_sub_cancel_left]
      rfl
    | succ k =>
      rw [ih h.2 hk, List.take_succ_cons, filesLength, Nat.add_assoc]

/-- The files one after the other are the bytes that they share. -/
theorem HasParts.flatten :
    ∀ {files : List File} {idx : Nat}, HasParts disk cwd output bytes files idx →
      (files.map fun f => disk.read (place cwd output f)).flatten =
        (bytes.drop idx).take (filesLength files) := by
  intro files
  induction files with
  | nil => intro idx _; exact List.take_zero.symm
  | cons f files ih =>
    intro idx h
    rw [List.map_cons, List.flatten_cons, ih h.2, Disk.read_of_node h.1, List.drop_take,
      Nat.add_sub_cancel_left, filesLength, List.take_add, List.drop_drop]

/-- `write` never slices out of range. If it returns `Ok`, and the paths lead to
different places, then every file has its part of the bytes, and all of them in
order are the bytes. -/
theorem write_splits {p : Profile} {allows : Fs} {output : String} {files : List File}
    (hbytes : bytes.length = filesLength files) (hvec : bytes.length < 2 ^ 63) :
    let w := write p (fsOn cwd disk allows) output (.multiFile files) bytes
    w.result ≠ .panicked ∧
      ((files.map (place cwd output.toList)).Nodup → w.result = .ok →
        ∃ disk', run (applyOp cwd) disk w.ops = some disk' ∧
          (∀ k f, files[k]? = some f →
            disk'.node (place cwd output.toList f) =
              some (.file ((bytes.drop (filesLength (files.take k))).take f.length))) ∧
          (files.map fun f => disk'.read (place cwd output.toList f)).flatten = bytes) := by
  intro w
  rcases @writeFiles_ends cwd disk allows p output.toList bytes hvec files 0 [] disk rfl
      (by omega) with herror | ⟨hok, disk', hran, _, hholds⟩
  · have hresult : w.result = .ioError := herror
    rw [hresult]
    exact ⟨nofun, fun _ => nofun⟩
  · have hresult : w.result = .ok := hok
    rw [hresult]
    refine ⟨nofun, ?_⟩
    intro hnodup _
    refine ⟨disk', hran, ?_, ?_⟩
    · intro k f hk
      rw [(hholds hnodup).get hk, Nat.zero_add]
    · rw [(hholds hnodup).flatten, List.drop_zero, ← hbytes, List.take_length]

theorem write_splits_three :
    let files : List File := [⟨2, ["a"]⟩, ⟨0, ["d", "b"]⟩, ⟨1, ["d", "c"]⟩]
    let w := write .dev (fsOn [] .empty allSucceed) "/out" (.multiFile files) [1, 2, 3]
    w.result = .ok ∧ ∃ disk', run (applyOp []) .empty w.ops = some disk' ∧
      (files.map fun f => disk'.read (place [] "/out".toList f)).flatten = [1, 2, 3] := by
  intro files w
  have hok : w.result = .ok := by decide +kernel
  have hnodup : (files.map (place [] "/out".toList)).Nodup := by decide +kernel
  obtain ⟨disk', hran, -, hflat⟩ := (write_splits rfl (by decide)).2 hnodup hok
  exact ⟨hok, disk', hran, hflat⟩

/-- The paths are different and neither is above the other, but they lead to one
place: the byte of the first file is not on the disk. -/
theorem second_replaces_first :
    let files : List File := [⟨1, ["a"]⟩, ⟨1, ["x", "..", "a"]⟩]
    let w := write .dev (fsOn [] .empty allSucceed) "/out" (.multiFile files) [1, 2]
    let path (f : File) := (PathBuf.join "/out".toList (makeFilePath f.path)).components
    filesLength files = 2 ∧ (∀ f ∈ files, ∀ g ∈ files, path f <+: path g → f = g) ∧
      w.result = .ok ∧
      (run (applyOp []) .empty w.ops).map
          (fun disk' => disk'.node (place [] "/out".toList ⟨1, ["a"]⟩)) =
        some (some (.file [2])) := by
  decide +kernel

end Files

end BitTorrent
