import BitTorrent.Bencode.MetaInfo
import BitTorrent.Lib.Paths

/-!
# Writing the download (`file/mod.rs`)

`write` joins the path of every file of the torrent to the output directory,
creates the directory of the file, and writes its part of the bytes. It stops
at the first call that fails. The file system is a function `fs`: whether a call
succeeds, after the calls made before.

The parts of a path come from the torrent as they are. Whatever the output
directory is, the calls stay inside it exactly when every path of the torrent
`Stays` (`write_contained_iff`).

Mirroring notes:

* a call names its path by the components, and what matters of an `io::Error` is
  that `write` returns it;
* the loop goes on by continuations: what comes after a call is an argument of it
  (`attempt`), and runs when the call succeeds. `?` ends the function there;
* `idx + f.length as usize` is checked by the build, and the slice panics when it is
  not inside the bytes;
* the output directory is the argument of the command, any text. It may be relative
  or have `..` in it, and the calls stay inside of wherever it leads.
-/

namespace BitTorrent

/-- A call of `tokio::fs`. -/
inductive FsOp
  | createDirAll (path : List Component)
  | write (path : List Component) (bytes : List UInt8)
  deriving DecidableEq, Repr

/-- The path of a call. -/
def FsOp.path : FsOp → List Component
  | createDirAll path => path
  | write path _ => path

/-- Which calls succeed, after the calls made so far. -/
abbrev Fs := List FsOp → FsOp → Bool

/-- How `write` ends. -/
inductive WriteResult
  | ok
  | ioError
  | panicked
  deriving DecidableEq, Repr

/-- The calls that were made, and how it ended. -/
structure Written where
  ops : List FsOp
  result : WriteResult
  deriving DecidableEq, Repr

/-- A call, and what follows if it succeeds. -/
def attempt (fs : Fs) (ops : List FsOp) (op : FsOp) (next : List FsOp → Written) : Written :=
  if fs ops op then next (ops ++ [op]) else ⟨ops ++ [op], .ioError⟩

/-- How many bytes the files have. -/
def filesLength : List File → Nat
  | [] => 0
  | f :: files => f.length + filesLength files

/-- `make_file_path`: the parts are pushed one after the other. -/
def makeFilePath (parts : List String) : PathBuf :=
  parts.foldl (fun path p => path.push p.toList) []

/-- `create_dir_all` of the path's parent, if it has one. -/
def createParent (fs : Fs) (ops : List FsOp) (path : PathBuf) (next : List FsOp → Written) :
    Written :=
  match parent path.components with
  | some dir => attempt fs ops (.createDirAll dir) next
  | none => next ops

/-- Write the slice `bytes[idx..new_idx]`, and go on from there. -/
def writePart (p : Profile) (fs : Fs) (ops : List FsOp) (path : PathBuf) (bytes : List UInt8)
    (idx length : Nat) (next : Nat → List FsOp → Written) : Written :=
  match p.add 64 idx length with
  | none => ⟨ops, .panicked⟩
  | some newIdx =>
    if idx ≤ newIdx ∧ newIdx ≤ bytes.length then
      attempt fs ops (.write path.components ((bytes.take newIdx).drop idx)) (next newIdx)
    else ⟨ops, .panicked⟩

/-- The loop over the files. -/
def writeFiles (p : Profile) (fs : Fs) (outputDir : PathBuf) (bytes : List UInt8) :
    List File → Nat → List FsOp → Written
  | [], _, ops => ⟨ops, .ok⟩
  | f :: files, idx, ops =>
    let path := outputDir.join (makeFilePath f.path)
    createParent fs ops path fun ops =>
      writePart p fs ops path bytes idx f.length fun idx ops =>
        writeFiles p fs outputDir bytes files idx ops

/-- `write`. A single file is written to `output` itself. -/
def write (p : Profile) (fs : Fs) (output : String) (dlType : DownloadType) (bytes : List UInt8) :
    Written :=
  match dlType with
  | .singleFile _ =>
    attempt fs [] (.write (PathBuf.components output.toList) bytes) fun ops => ⟨ops, .ok⟩
  | .multiFile files => writeFiles p fs output.toList bytes files 0 []

/-! ## What it means to stay inside -/

/-- The path leads into the output directory, or to it. -/
def Inside (cwd : Dir) (output : PathBuf) (path : List Component) : Prop :=
  resolve cwd output.components <+: resolve cwd path

/-- Every call of `write` is about a path inside the output directory. -/
def Contained (cwd : Dir) (output : String) (w : Written) : Prop :=
  ∀ op ∈ w.ops, Inside cwd output.toList op.path

/-- What the parts of a path name, one after the other. -/
def File.steps (f : File) : List Component := f.path.flatMap fun part => PathBuf.body part.toList

/-- No part is absolute, the parts name something, and they never climb above
where they start. -/
structure File.Stays (f : File) : Prop where
  relative : ∀ part ∈ f.path, ¬ PathBuf.Absolute part.toList
  named : f.steps ≠ []
  above : StaysAbove 0 f.steps

/-! ## The path of a file -/

section FilePath

variable {parts : List String} {f : File} {cwd : Dir} {output rel : PathBuf}

/-- A path is absolute when one of its parts is: `push` drops what stood before. -/
theorem absolute_makeFilePath :
    (makeFilePath parts).Absolute ↔ ∃ part ∈ parts, PathBuf.Absolute part.toList := by
  have hfold (path : PathBuf) : (parts.foldl (fun path p => path.push p.toList) path).Absolute ↔
      path.Absolute ∨ ∃ part ∈ parts, PathBuf.Absolute part.toList := by
    induction parts generalizing path with
    | nil => simp
    | cons part parts ih =>
      rw [List.foldl_cons, ih, PathBuf.absolute_push, List.exists_mem_cons_iff, or_assoc,
        or_left_comm]
  refine (hfold []).trans (or_iff_right ?_)
  exact fun h => by cases h

/-- Relative parts are put together. -/
theorem body_makeFilePath (hrel : ∀ part ∈ parts, ¬ PathBuf.Absolute part.toList) :
    (makeFilePath parts).body = parts.flatMap fun part => PathBuf.body part.toList := by
  have hfold (path : PathBuf) : (parts.foldl (fun path p => path.push p.toList) path).body =
      path.body ++ parts.flatMap fun part => PathBuf.body part.toList := by
    induction parts generalizing path with
    | nil => exact (List.append_nil path.body).symm
    | cons part parts ih =>
      rw [List.foldl_cons, ih fun part' h => hrel part' (List.mem_cons_of_mem part h),
        PathBuf.body_push (hrel part (List.mem_cons_self ..)), List.append_assoc, List.flatMap_cons]
  exact hfold []

/-- Joined to a directory, a relative path goes on where the directory leads. -/
theorem resolve_join (hrel : ¬ rel.Absolute) (cs : List Component) :
    resolve cwd ((output.join rel).lead ++ (output.body ++ cs)) =
      cs.foldl enter (resolve cwd output.components) := by
  have habs : (output.join rel).Absolute ↔ output.Absolute :=
    PathBuf.absolute_push.trans (or_iff_right hrel)
  unfold PathBuf.components
  rw [resolve_lead, resolve_lead, List.foldl_append]
  simp only [habs]

theorem components_join (hrel : ¬ rel.Absolute) :
    (output.join rel).components = (output.join rel).lead ++ (output.body ++ rel.body) :=
  congrArg ((output.join rel).lead ++ ·) (PathBuf.body_push hrel)

/-- What stays above the output directory ends up inside of it. -/
theorem inside_join (hrel : ¬ rel.Absolute) {cs : List Component} (habove : StaysAbove 0 cs)
    (hroot : .rootDir ∉ cs) :
    Inside cwd output ((output.join rel).lead ++ (output.body ++ cs)) := by
  unfold Inside
  rw [resolve_join hrel]
  have h : resolve cwd output.components <+:
      cs.foldl enter (resolve cwd output.components ++ []) :=
    prefix_foldl_enter habove hroot rfl
  rwa [List.append_nil] at h

/-- **A path that stays is written inside the output directory, and so is its
directory created.** -/
theorem File.Stays.inside (h : f.Stays) :
    let path := (output.join (makeFilePath f.path)).components
    Inside cwd output path ∧ ∀ dir, parent path = some dir → Inside cwd output dir := by
  have hrel : ¬ (makeFilePath f.path).Absolute := fun habs => by
    obtain ⟨part, hpart, habs⟩ := absolute_makeFilePath.mp habs
    exact h.relative part hpart habs
  have hbody : (makeFilePath f.path).body = f.steps := body_makeFilePath h.relative
  have hroot := PathBuf.rootDir_not_mem_body (makeFilePath f.path)
  rw [components_join hrel, hbody]
  rw [hbody] at hroot
  refine ⟨inside_join hrel h.above hroot, fun dir hdir => ?_⟩
  -- the directory is the path without its last step
  obtain ⟨cs, c, hsteps⟩ : ∃ cs c, f.steps = cs ++ [c] :=
    ⟨_, _, (List.dropLast_append_getLast h.named).symm⟩
  have hc : c ≠ .rootDir := fun hc => hroot (hsteps ▸ hc ▸ List.mem_append_right cs (by simp))
  have habove := h.above
  rw [hsteps] at hdir hroot habove
  rw [← List.append_assoc, ← List.append_assoc, parent_append hc, List.append_assoc] at hdir
  rw [← Option.some.inj hdir]
  exact inside_join hrel (staysAbove_append habove) fun hmem => hroot (List.mem_append_left _ hmem)

end FilePath

/-! ## The loop -/

section Loop

variable {P : FsOp → Prop} {fs : Fs} {ops : List FsOp} {op : FsOp} {p : Profile}
  {path outputDir : PathBuf} {bytes : List UInt8}

/-- Whatever holds of the calls so far, of this one and of what follows, holds of
all. -/
theorem attempt_ops {next : List FsOp → Written} (hops : ∀ op ∈ ops, P op) (hop : P op)
    (hnext : ∀ ops', (∀ op ∈ ops', P op) → ∀ op ∈ (next ops').ops, P op) :
    ∀ op' ∈ (attempt fs ops op next).ops, P op' := by
  have hops' : ∀ op' ∈ ops ++ [op], P op' := by
    intro op' h
    rcases List.mem_append.mp h with h | h
    · exact hops op' h
    · exact List.mem_singleton.mp h ▸ hop
  unfold attempt
  by_cases hfs : fs ops op = true
  · rw [if_pos hfs]
    exact hnext _ hops'
  · rw [if_neg hfs]
    exact hops'

theorem createParent_ops {next : List FsOp → Written} (hops : ∀ op ∈ ops, P op)
    (hdir : ∀ dir, parent path.components = some dir → P (.createDirAll dir))
    (hnext : ∀ ops', (∀ op ∈ ops', P op) → ∀ op ∈ (next ops').ops, P op) :
    ∀ op ∈ (createParent fs ops path next).ops, P op := by
  unfold createParent
  cases hparent : parent path.components with
  | none => exact hnext ops hops
  | some dir => exact attempt_ops hops (hdir dir hparent) hnext

/-- The calls of `writePart`, and what follows. -/
theorem writePart_ops {next : Nat → List FsOp → Written} {idx length : Nat}
    (hops : ∀ op ∈ ops, P op) (hwrite : ∀ b, P (.write path.components b))
    (hnext : ∀ idx ops', (∀ op ∈ ops', P op) → ∀ op ∈ (next idx ops').ops, P op) :
    ∀ op ∈ (writePart p fs ops path bytes idx length next).ops, P op := by
  unfold writePart
  cases p.add 64 idx length with
  | none => exact hops
  | some newIdx =>
    dsimp only
    by_cases hslice : idx ≤ newIdx ∧ newIdx ≤ bytes.length
    · rw [if_pos hslice]
      exact attempt_ops hops (hwrite _) (hnext newIdx)
    · rw [if_neg hslice]
      exact hops

/-- What holds of the two calls for every file holds of all the calls. -/
theorem writeFiles_ops {files : List File} {idx : Nat} (hops : ∀ op ∈ ops, P op)
    (hfile : ∀ f ∈ files, let path := (outputDir.join (makeFilePath f.path)).components
      (∀ b, P (.write path b)) ∧ ∀ dir, parent path = some dir → P (.createDirAll dir)) :
    ∀ op ∈ (writeFiles p fs outputDir bytes files idx ops).ops, P op := by
  induction files generalizing idx ops with
  | nil => exact hops
  | cons f files ih =>
    obtain ⟨hwrite, hdir⟩ := hfile f (List.mem_cons_self ..)
    refine createParent_ops hops hdir fun ops hops => ?_
    refine writePart_ops hops hwrite fun idx ops hops => ?_
    exact ih hops fun f' hf' => hfile f' (List.mem_cons_of_mem f hf')

/-- A file system on which no call fails. -/
def allSucceed : Fs := fun _ _ => true

theorem createParent_all {next : List FsOp → Written} :
    createParent allSucceed ops path next =
      next (ops ++ (parent path.components).toList.map .createDirAll) := by
  unfold createParent
  cases parent path.components with
  | none => exact congrArg next (List.append_nil ops).symm
  | some dir => rfl

/-- When every call succeeds, the slice is written. -/
theorem writePart_all {next : Nat → List FsOp → Written} {idx length : Nat}
    (hvec : bytes.length < 2 ^ 63) (hlen : idx + length ≤ bytes.length) :
    writePart p allSucceed ops path bytes idx length next =
      next (idx + length)
        (ops ++ [.write path.components ((bytes.take (idx + length)).drop idx)]) := by
  unfold writePart
  rw [p.add_of_lt (by omega)]
  dsimp only
  rw [if_pos (by omega)]
  rfl

/-- Where no call fails and the bytes suffice, every file gets its two calls. -/
theorem writeFiles_all {files : List File} {idx : Nat} (hvec : bytes.length < 2 ^ 63)
    (hlen : idx + filesLength files ≤ bytes.length) :
    ∃ more, (writeFiles p allSucceed outputDir bytes files idx ops).ops = ops ++ more ∧
      ∀ f ∈ files, let path := (outputDir.join (makeFilePath f.path)).components
        (∃ b, .write path b ∈ more) ∧ ∀ dir, parent path = some dir → .createDirAll dir ∈ more := by
  induction files generalizing idx ops with
  | nil => exact ⟨[], (List.append_nil ops).symm, fun f hf => by cases hf⟩
  | cons f files ih =>
    rw [filesLength] at hlen
    rw [writeFiles, createParent_all, writePart_all hvec (by omega)]
    obtain ⟨more, hmore, hfiles⟩ := @ih _ (idx + f.length) (by omega)
    rw [hmore, List.append_assoc, List.append_assoc]
    refine ⟨_, rfl, fun f' hf' => ?_⟩
    rcases List.mem_cons.mp hf' with rfl | hf'
    · exact ⟨⟨(bytes.take (idx + f'.length)).drop idx, by simp⟩, fun dir hdir => by simp [hdir]⟩
    · obtain ⟨⟨b, hb⟩, hdir⟩ := hfiles f' hf'
      exact ⟨⟨b, by simp [hb]⟩, fun dir h => by simp [hdir dir h]⟩

end Loop

/-! ## Where it does not stay -/

section Leaves

variable {f : File}

/-- A directory of the root that no path of `f` names. -/
def freshName (f : File) : List Char := List.replicate ((makeFilePath f.path).length + 3) 'a'

/-- The name is one part. -/
theorem freshName_body : PathBuf.body ('/' :: freshName f) = [.normal (freshName f)] := by
  refine PathBuf.body_root_name (fun h => ?_) ?_
  · exact absurd (List.eq_of_mem_replicate h) (by decide)
  · unfold freshName
    rw [List.length_replicate]
    omega

/-- The name is not one of the path. -/
theorem freshName_not_mem : .normal (freshName f) ∉ (makeFilePath f.path).body := by
  intro h
  have hlen := PathBuf.length_le_of_mem_body h
  unfold freshName at hlen
  rw [List.length_replicate] at hlen
  omega

theorem resolve_fresh :
    resolve [] (PathBuf.components ('/' :: freshName f)) = [freshName f] := by
  unfold PathBuf.components
  rw [resolve_lead, freshName_body]
  rfl

/-- **A path that does not stay leaves some output directory**, or its directory
does. -/
theorem File.leaves (h : ¬ f.Stays) :
    let output : PathBuf := '/' :: freshName f
    let path := (output.join (makeFilePath f.path)).components
    ¬ Inside [] output path ∨ ∃ dir, parent path = some dir ∧ ¬ Inside [] output dir := by
  intro output path
  have hname {dir : Dir} (hdir : freshName f ∉ dir) :
      ¬ resolve [] (PathBuf.components ('/' :: freshName f)) <+: dir := by
    intro h
    rw [resolve_fresh] at h
    exact hdir (h.subset (List.mem_singleton.mpr rfl))
  by_cases hrel : (makeFilePath f.path).Absolute
  · -- an absolute path leads where it likes
    refine Or.inl (hname ?_)
    have hpath : path = (makeFilePath f.path).components := by
      show PathBuf.components (PathBuf.push _ _) = _
      rw [PathBuf.push, if_pos hrel]
    rw [hpath, PathBuf.components, resolve_lead, if_pos hrel]
    exact not_mem_foldl_enter List.not_mem_nil freshName_not_mem
  · have hparts : ∀ part ∈ f.path, ¬ PathBuf.Absolute part.toList := fun part hpart habs =>
      hrel (absolute_makeFilePath.mpr ⟨part, hpart, habs⟩)
    have hbody : (makeFilePath f.path).body = f.steps := body_makeFilePath hparts
    by_cases hnamed : f.steps = []
    · -- the directory of the output directory would be created
      refine Or.inr ⟨[.rootDir], ?_, hname List.not_mem_nil⟩
      have habs : PathBuf.Absolute output := by rfl
      have hlead : (output.join (makeFilePath f.path)).lead = [.rootDir] :=
        if_pos (PathBuf.absolute_push.mpr (Or.inr habs))
      show parent (PathBuf.components _) = _
      rw [components_join hrel, hbody, hnamed, hlead, freshName_body]
      rfl
    · have habove : ¬ StaysAbove 0 f.steps := fun habove => h ⟨hparts, hnamed, habove⟩
      refine Or.inl (hname ?_)
      show freshName f ∉ resolve [] (PathBuf.components _)
      rw [components_join hrel, resolve_join hrel, resolve_fresh]
      have hclimbs : freshName f ∉ (makeFilePath f.path).body.foldl enter ([freshName f] ++ []) :=
        not_mem_of_climbs (hbody ▸ habove) freshName_not_mem rfl List.not_mem_nil
      rwa [List.append_nil] at hclimbs

end Leaves

/-- **The calls stay inside every output directory exactly when every path of the
torrent stays.** The bytes are those of the files, and they are in memory. -/
theorem write_contained_iff {p : Profile} {files : List File} {bytes : List UInt8}
    (hbytes : bytes.length = filesLength files) (hvec : bytes.length < 2 ^ 63) :
    (∀ cwd fs output, Contained cwd output (write p fs output (.multiFile files) bytes)) ↔
      ∀ f ∈ files, f.Stays := by
  constructor
  · intro h f hf
    by_contra hstays
    have hcontained := h [] allSucceed (String.ofList ('/' :: freshName f))
    unfold Contained write at hcontained
    simp only [String.toList_ofList] at hcontained
    obtain ⟨more, hmore, hfiles⟩ := @writeFiles_all [] p
      ('/' :: freshName f) bytes files 0 hvec (by omega)
    rw [hmore] at hcontained
    obtain ⟨⟨b, hb⟩, hdir⟩ := hfiles f hf
    rcases File.leaves hstays with hleaves | ⟨dir, hparent, hleaves⟩
    · exact hleaves (hcontained _ hb)
    · exact hleaves (hcontained _ (hdir dir hparent))
  · intro h cwd fs output
    refine writeFiles_ops (fun op hop => by cases hop) fun f hf => ?_
    obtain ⟨hpath, hdir⟩ := @File.Stays.inside f cwd output.toList (h f hf)
    exact ⟨fun b => hpath, hdir⟩

theorem write_contained_iff_one :
    (∀ cwd fs output, Contained cwd output
        (write .dev fs output (.multiFile [⟨2, ["path", "file"]⟩]) [1, 2])) ↔
      ∀ f ∈ [(⟨2, ["path", "file"]⟩ : File)], f.Stays :=
  write_contained_iff rfl (by decide)

/-- A torrent that asks for `../x` has it written next to the output directory. -/
theorem parent_part_leaves :
    ¬ Contained [] "/out"
      (write .dev allSucceed "/out" (.multiFile [⟨2, ["..", "x"]⟩]) [1, 2]) := by
  intro h
  have hwrite : FsOp.write [.rootDir, .normal ['o', 'u', 't'], .parentDir, .normal ['x']] [1, 2] ∈
      (write .dev allSucceed "/out" (.multiFile [⟨2, ["..", "x"]⟩]) [1, 2]).ops := by
    decide +kernel
  have hinside : ¬ Inside [] ['/', 'o', 'u', 't']
      [.rootDir, .normal ['o', 'u', 't'], .parentDir, .normal ['x']] := by
    unfold Inside
    decide +kernel
  exact hinside (h _ hwrite)

end BitTorrent
