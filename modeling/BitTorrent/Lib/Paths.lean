import Mathlib.Data.List.Basic

/-!
# Paths on Unix, as `std::path`

A path is a text. `push` and `join` work on the text: an absolute path replaces
what was there, and a relative one goes after a separator. `components` is what
the text says, with empty names and `.` left out, and `parent` drops the last of
them.

`resolve` is where a path leads from a working directory: `..` goes to the
directory above, and above the root is the root. There are no links.

`StaysAbove 0` of a relative path says that it never climbs out of where it
starts, and then it stays below any directory it is joined to
(`prefix_foldl_enter`). A path that climbs out comes back under no name of its
own choosing (`not_mem_of_climbs`).

Mirroring notes:

* a path is a list of characters and not of bytes. Paths come from `String`s, and
  the separator and the dots are ASCII;
* a `.` at the start of a relative path is a component, as in Rust, and anywhere
  else it is none;
* `resolve` works on names. On a disk a `..` asks for the directory above the one
  that was entered, which is the same as long as no name is a link, and every name
  before it has to exist.
-/

namespace BitTorrent

/-- A path as its characters. -/
abbrev PathBuf := List Char

/-- `std::path::Component`. -/
inductive Component
  | rootDir
  | curDir
  | parentDir
  | normal (name : List Char)
  deriving DecidableEq, Repr

namespace PathBuf

/-- `Path::is_absolute`. -/
def Absolute (path : PathBuf) : Prop := path.head? = some '/'

instance (path : PathBuf) : Decidable path.Absolute := inferInstanceAs (Decidable (_ = _))

/-- `PathBuf::push`. -/
def push (path p : PathBuf) : PathBuf :=
  if p.Absolute then p
  else if path = [] ∨ path.getLast? = some '/' then path ++ p
  else path ++ '/' :: p

/-- `Path::join`. -/
def join (path p : PathBuf) : PathBuf := path.push p

/-- Put `c` in front of the first text. -/
def consFirst (c : Char) : List (List Char) → List (List Char)
  | [] => [[c]]
  | s :: ss => (c :: s) :: ss

/-- The texts between the separators. -/
def segments : PathBuf → List (List Char)
  | [] => [[]]
  | c :: cs => if c = '/' then [] :: segments cs else consFirst c (segments cs)

/-- The component of what stands between two slashes; `.` and nothing are none. -/
def component (s : List Char) : Option Component :=
  if s = [] ∨ s = ['.'] then none
  else if s = ['.', '.'] then some .parentDir
  else some (.normal s)

/-- What a path begins with: the root, a `.`, or neither. -/
def lead (path : PathBuf) : List Component :=
  if path.Absolute then [.rootDir]
  else if path.segments.head? = some ['.'] then [.curDir]
  else []

/-- The components behind the first. -/
def body (path : PathBuf) : List Component := path.segments.filterMap component

/-- `Path::components`. -/
def components (path : PathBuf) : List Component := path.lead ++ path.body

end PathBuf

/-- `Path::parent`, of the components of a path. -/
def parent (cs : List Component) : Option (List Component) :=
  match cs.getLast? with
  | none => none
  | some .rootDir => none
  | some _ => some cs.dropLast

/-- A directory, by the names that lead to it from the root. -/
abbrev Dir := List (List Char)

/-- The directory that a component leads to. -/
def enter (dir : Dir) : Component → Dir
  | .rootDir => []
  | .curDir => dir
  | .parentDir => dir.dropLast
  | .normal name => dir ++ [name]

/-- The directory that a path leads to, when there are no links. -/
def resolve (cwd : Dir) (cs : List Component) : Dir := cs.foldl enter cwd

/-- From `depth` below its start, a path goes above it nowhere. -/
def StaysAbove : Nat → List Component → Prop
  | _, [] => True
  | 0, .parentDir :: _ => False
  | depth + 1, .parentDir :: cs => StaysAbove depth cs
  | depth, .normal _ :: cs => StaysAbove (depth + 1) cs
  | depth, .curDir :: cs => StaysAbove depth cs
  | depth, .rootDir :: cs => StaysAbove depth cs

namespace PathBuf

variable {path p : PathBuf}

/-! ## The components of a path that is put together -/

theorem segments_ne_nil (path : PathBuf) : path.segments ≠ [] := by
  cases path with
  | nil => exact List.cons_ne_nil _ _
  | cons c cs =>
    unfold segments
    split
    · exact List.cons_ne_nil _ _
    · cases segments cs with
      | nil => exact List.cons_ne_nil _ _
      | cons s ss => exact List.cons_ne_nil _ _

/-- A slash splits a path. -/
theorem segments_append (path p : PathBuf) :
    segments (path ++ '/' :: p) = segments path ++ segments p := by
  induction path with
  | nil => exact if_pos rfl
  | cons c cs ih =>
    rw [List.cons_append]
    simp only [segments]
    rw [ih]
    split
    · rfl
    · cases hs : segments cs with
      | nil => exact absurd hs (segments_ne_nil cs)
      | cons s ss => rfl

theorem body_append (path p : PathBuf) : body (path ++ '/' :: p) = body path ++ body p := by
  unfold body
  rw [segments_append, List.filterMap_append]

/-- A relative path goes after what was there, whatever separators are written. -/
theorem body_push (hp : ¬ p.Absolute) : (path.push p).body = path.body ++ p.body := by
  unfold push
  rw [if_neg hp]
  split
  · rename_i h
    rcases h with rfl | h
    · rfl
    · obtain ⟨path, rfl⟩ := List.getLast?_eq_some_iff.mp h
      rw [List.append_assoc, List.singleton_append, body_append, body_append]
      show _ = body path ++ body [] ++ _
      rw [List.append_assoc]
      rfl
  · exact body_append path p

/-- `push` makes a path absolute when what is pushed is, or the path was. -/
theorem absolute_push : (path.push p).Absolute ↔ p.Absolute ∨ path.Absolute := by
  unfold push
  split
  · exact iff_of_true ‹_› (Or.inl ‹_›)
  · rename_i hp
    rw [or_iff_right hp]
    cases path with
    | nil =>
      rw [if_pos (Or.inl rfl)]
      exact iff_of_false hp (fun h => by cases h)
    | cons c cs =>
      split
      · exact Iff.rfl
      · exact Iff.rfl

/-- A name is no longer than the path it stands in. -/
theorem length_le_of_mem_segments {s : List Char} (h : s ∈ path.segments) :
    s.length ≤ path.length := by
  induction path generalizing s with
  | nil =>
    obtain rfl := List.mem_singleton.mp h
    exact Nat.le_refl 0
  | cons c cs ih =>
    unfold segments at h
    split at h
    · rcases List.mem_cons.mp h with rfl | h
      · exact Nat.zero_le _
      · exact Nat.le_succ_of_le (ih h)
    · cases hs : segments cs with
      | nil => exact absurd hs (segments_ne_nil cs)
      | cons t ts =>
        rw [hs] at h ih
        rcases List.mem_cons.mp h with rfl | h
        · exact Nat.succ_le_succ (ih (List.mem_cons_self ..))
        · exact Nat.le_succ_of_le (ih (List.mem_cons_of_mem t h))

/-- No component is longer than its path. -/
theorem length_le_of_mem_body {name : List Char} (h : .normal name ∈ path.body) :
    name.length ≤ path.length := by
  obtain ⟨s, hs, hname⟩ := List.mem_filterMap.mp h
  unfold component at hname
  split at hname
  · cases hname
  · split at hname
    · cases hname
    · cases hname
      exact length_le_of_mem_segments hs

/-- The root stands at the front or nowhere. -/
theorem rootDir_not_mem_body (path : PathBuf) : .rootDir ∉ path.body := by
  intro h
  obtain ⟨s, -, hs⟩ := List.mem_filterMap.mp h
  unfold component at hs
  split at hs
  · cases hs
  · split at hs
    · cases hs
    · cases hs

/-- A name is one segment. -/
theorem segments_of_not_mem {name : List Char} (h : '/' ∉ name) : segments name = [name] := by
  induction name with
  | nil => rfl
  | cons c name ih =>
    obtain ⟨hc, hname⟩ := not_or.mp (mt List.mem_cons.mpr h)
    simp only [segments]
    rw [if_neg (Ne.symm hc), ih hname]
    rfl

/-- A name that is not one of the special ones. -/
theorem body_root_name {name : List Char} (h : '/' ∉ name) (hlen : 2 < name.length) :
    body ('/' :: name) = [.normal name] := by
  have hname : component name = some (.normal name) := by
    have hdot : ¬ (name = [] ∨ name = ['.']) := by
      intro h
      rcases h with rfl | rfl
      · simp at hlen
      · simp at hlen
    have hdots : name ≠ ['.', '.'] := by
      intro h
      rw [h] at hlen
      simp at hlen
    unfold component
    rw [if_neg hdot, if_neg hdots]
  show (segments ([] ++ '/' :: name)).filterMap component = _
  rw [segments_append, segments_of_not_mem h, List.filterMap_append, List.filterMap_cons_some hname]
  rfl

end PathBuf

/-! ## Where a path leads -/

section Resolve

variable {cs : List Component} {dir start : Dir} {name : List Char}

/-- The parent of a path is the path without its last component. -/
theorem parent_append {c : Component} (hc : c ≠ .rootDir) : parent (cs ++ [c]) = some cs := by
  unfold parent
  rw [List.getLast?_concat, List.dropLast_concat]
  cases c with
  | rootDir => exact absurd rfl hc
  | curDir => rfl
  | parentDir => rfl
  | normal name => rfl

/-- Only the root matters of what a path begins with. -/
theorem resolve_lead (cwd : Dir) (path : PathBuf) (cs : List Component) :
    resolve cwd (path.lead ++ cs) = cs.foldl enter (if path.Absolute then [] else cwd) := by
  unfold resolve PathBuf.lead
  split
  · rfl
  · split
    · rfl
    · rfl

/-- The front of a path that stays above stays above. -/
theorem staysAbove_append {depth : Nat} {cs' : List Component} (h : StaysAbove depth (cs ++ cs')) :
    StaysAbove depth cs := by
  induction cs generalizing depth with
  | nil =>
    rw [StaysAbove]
    trivial
  | cons c cs ih =>
    rw [List.cons_append] at h
    cases c with
    | rootDir =>
      rw [StaysAbove] at h ⊢
      exact ih h
    | curDir =>
      rw [StaysAbove] at h ⊢
      exact ih h
    | normal name =>
      rw [StaysAbove] at h ⊢
      exact ih h
    | parentDir =>
      cases depth with
      | zero =>
        rw [StaysAbove] at h
        exact h.elim
      | succ depth =>
        rw [StaysAbove] at h ⊢
        exact ih h

/-- A path that never climbs out stays below where it starts. -/
theorem prefix_foldl_enter {depth : Nat} {below : Dir} (h : StaysAbove depth cs)
    (hroot : .rootDir ∉ cs) (hbelow : below.length = depth) :
    start <+: cs.foldl enter (start ++ below) := by
  induction cs generalizing depth below with
  | nil => exact List.prefix_append start below
  | cons c cs ih =>
    have hroot' := mt (List.mem_cons_of_mem c) hroot
    cases c with
    | rootDir => exact absurd (List.mem_cons_self ..) hroot
    | curDir =>
      rw [StaysAbove] at h
      exact ih h hroot' hbelow
    | normal name =>
      rw [StaysAbove] at h
      rw [List.foldl_cons, enter, List.append_assoc]
      exact ih h hroot' (by rw [List.length_append, hbelow]; rfl)
    | parentDir =>
      cases depth with
      | zero =>
        rw [StaysAbove] at h
        exact h.elim
      | succ depth =>
        rw [StaysAbove] at h
        have hne : below ≠ [] := List.ne_nil_of_length_eq_add_one hbelow
        rw [List.foldl_cons, enter, List.dropLast_append_of_ne_nil hne]
        exact ih h hroot' (by rw [List.length_dropLast, hbelow]; rfl)

/-- A name that is in neither is not in where they lead. -/
theorem not_mem_foldl_enter (hdir : name ∉ dir) (hcs : .normal name ∉ cs) :
    name ∉ cs.foldl enter dir := by
  induction cs generalizing dir with
  | nil => exact hdir
  | cons c cs ih =>
    refine ih ?_ (mt (List.mem_cons_of_mem c) hcs)
    cases c with
    | rootDir => exact List.not_mem_nil
    | curDir => exact hdir
    | parentDir => exact fun h => hdir (List.dropLast_subset dir h)
    | normal name' =>
      rw [enter, List.mem_append, List.mem_singleton]
      exact not_or.mpr ⟨hdir, fun h => hcs (h ▸ List.mem_cons_self ..)⟩

/-- A path that climbs out of a directory it does not name is not back in it at
the end. -/
theorem not_mem_of_climbs {depth : Nat} {below : Dir} (h : ¬ StaysAbove depth cs)
    (hcs : .normal name ∉ cs) (hbelow : below.length = depth) (hname : name ∉ below) :
    name ∉ cs.foldl enter ([name] ++ below) := by
  induction cs generalizing depth below with
  | nil =>
    rw [StaysAbove] at h
    exact absurd trivial h
  | cons c cs ih =>
    have hcs' := mt (List.mem_cons_of_mem c) hcs
    cases c with
    | rootDir =>
      show name ∉ cs.foldl enter []
      exact not_mem_foldl_enter List.not_mem_nil hcs'
    | curDir =>
      rw [StaysAbove] at h
      exact ih h hcs' hbelow hname
    | normal name' =>
      rw [StaysAbove] at h
      rw [List.foldl_cons, enter, List.append_assoc]
      refine ih h hcs' (by rw [List.length_append, hbelow]; rfl) ?_
      rw [List.mem_append, List.mem_singleton]
      exact not_or.mpr ⟨hname, fun heq => hcs (heq ▸ List.mem_cons_self ..)⟩
    | parentDir =>
      cases depth with
      | zero =>
        -- out of the directory: only names of the path can be pushed now
        rw [List.length_eq_zero_iff.mp hbelow]
        show name ∉ cs.foldl enter []
        exact not_mem_foldl_enter List.not_mem_nil hcs'
      | succ depth =>
        rw [StaysAbove] at h
        have hne : below ≠ [] := List.ne_nil_of_length_eq_add_one hbelow
        rw [List.foldl_cons, enter, List.dropLast_append_of_ne_nil hne]
        exact ih h hcs' (by rw [List.length_dropLast, hbelow]; rfl)
          fun h => hname (List.dropLast_subset below h)

end Resolve

end BitTorrent
