import BitTorrent.Download.Pieces

/-!
# One downloader and its environment

A run of one downloader: its own steps, with the messages its peer sends, and
in between any calls of the other downloaders on the shared bitfield. What is
proved of such runs holds of each downloader of a whole system.

The environment may do more here than it does there. It sets any piece at any time,
and the lock and the channel are left out: a step of ours is taken whenever the
phase allows it, and a send on the channel returns or fails as the label says. What
a downloader of the whole system does, up to a panic of its codec, is a run of this
kind, and a run of this kind need not come from a whole system.

`Solo.Inv` is what holds in all of these runs: the invariant of the bitfield, which
every call keeps, and what the task knows as long as it lives.
-/

namespace BitTorrent

/-- One downloader over the bitfield that it shares. -/
structure Solo where
  bitfield : Bitfield
  seed : SeedDownloader

/-- A step of ours, or a call on the bitfield by somebody else. -/
inductive SoloAct
  | own (a : SeedAct)
  | other (op : BitOp)
  deriving DecidableEq, Repr

/-- The start of a download. -/
def Solo.new (cfg : Config) : Solo where
  bitfield := .zero cfg.torrent.numPieces
  seed := .new

/-- The others may call the bitfield with any index of the torrent, at any time. -/
def soloStep (cfg : Config) (σ : Solo) : SoloAct → Option Solo
  | .own a => (seedStep cfg σ.bitfield σ.seed a).map fun out => ⟨out.bitfield, out.seed⟩
  | .other op =>
    if op.InRange cfg.torrent.numPieces then some { σ with bitfield := (σ.bitfield.call op).1 }
    else none

/-- The piece that has all its blocks. -/
def SeedDownloader.completing (s : SeedDownloader) : Option (Nat × PieceDownload) :=
  match s.phase with
  | .complete k => (s.pendingPieces[k]?).map fun dl => (k, dl)
  | _ => none

/-- The task is between two messages. -/
def SeedDownloader.AtRest (s : SeedDownloader) : Prop := s.phase = .loopHead ∨ s.phase = .select

instance (s : SeedDownloader) : Decidable s.AtRest := inferInstanceAs (Decidable (_ ∨ _))

/-- What holds in every run. -/
structure Solo.Inv (cfg : Config) (σ : Solo) : Prop where
  bitfield : Bitfield.Inv cfg.torrent.numPieces σ.bitfield
  seed : σ.seed.Alive → Known cfg σ.seed

section Solo

variable {cfg : Config} {b : Bitfield} {s s' : SeedDownloader} {a : SeedAct} {σ σ' : Solo}

/-- The piece of the phase, when it is pending. -/
theorem completing_eq {k : Nat} {dl : PieceDownload} (hs : s.phase = .complete k)
    (hdl : s.pendingPieces[k]? = some dl) : s.completing = some (k, dl) := by
  unfold SeedDownloader.completing
  rw [hs]
  dsimp only
  rw [hdl]
  rfl

/-- A task that takes a step has not panicked. -/
theorem Effect.alive (he : Effect cfg b s a s') : s.Alive := by
  intro e hp
  cases he with
  | move hm =>
    cases hm with
    | finish hs | listen hs | ignore hs | streamEnd hs | sendOk hs | sendErr hs | leave hs
    | release hs | choked hs | pickNone hs | pickPending hs | pickNew hs => rw [hs] at hp; cases hp
  | choke hs | unchoke hs | orphan hs | block hs | valid hs | invalid hs | request hs
  | requestFailed hs | start hs | startFailed hs => rw [hs] at hp; cases hp
  | panic hcause hs' =>
    cases hcause with
    | remaining hs | choke hs | remainingBlocks hs | inflight hs | splice hs | notImplemented hs
    | set hs | notPending hs | request hs | pick hs | newPiece hs | start hs
    | alreadyPending hs => rw [hs] at hp; cases hp

/-- A task that has panicked was stopped by one of the causes. -/
theorem Effect.cause (he : Effect cfg b s a s') {e : Panic} (hp : s'.phase = .panicked e) :
    Cause cfg b s a e := by
  cases he with
  | move hm =>
    cases hm with
    | finish | listen | ignore | streamEnd | sendOk | sendErr | leave | release | choked
    | pickNone | pickPending | pickNew => cases hp
  | choke | unchoke | orphan | valid | invalid | requestFailed | start | startFailed => cases hp
  | block => dsimp only at hp; split at hp <;> cases hp
  | request => dsimp only [SeedDownloader.goto] at hp; split at hp <;> cases hp
  | panic hcause hs' =>
    rw [hs'] at hp
    obtain rfl := Phase.panicked.inj hp
    exact hcause

/-- The calls of a task on the bitfield are in range. -/
theorem Known.bitOp_inRange (h : Known cfg s) {op : BitOp} (hop : s.bitOp a = some op) :
    op.InRange cfg.torrent.numPieces := by
  unfold SeedDownloader.bitOp at hop
  split at hop
  next =>
    split at hop
    next index hs =>
      obtain rfl := Option.some.inj hop
      have hph := h.phase
      rw [hs] at hph
      obtain ⟨dl, hdl⟩ := hph
      exact (h.piece index dl hdl).lt
    next => cases hop
  next =>
    obtain rfl := Option.some.inj hop
    exact trivial
  next => cases hop

theorem Bitfield.inv_after {n : Nat} (hb : Bitfield.Inv n b) (hn : n < 2 ^ 32) {op : Option BitOp}
    (hop : ∀ o, op = some o → o.InRange n) : Bitfield.Inv n (b.after op) := by
  cases op with
  | none => exact hb
  | some op => exact Bitfield.inv_call hb hn (hop op rfl)

/-- Pieces are only ever added. -/
theorem Bitfield.owns_after {n : Nat} (hb : Bitfield.Inv n b) (hn : n < 2 ^ 32) {op : Option BitOp}
    (hop : ∀ o, op = some o → o.InRange n) {i : Nat} (hi : b.Owns i) : (b.after op).Owns i := by
  cases op with
  | none => exact hi
  | some op => exact (Bitfield.owns_call hb hn (hop op rfl) i).mpr (Or.inl hi)

theorem soloStep_own (h : soloStep cfg σ (.own a) = some σ') :
    Effect cfg σ.bitfield σ.seed a σ'.seed ∧ σ'.bitfield = σ.bitfield.after (σ.seed.bitOp a) := by
  obtain ⟨out, hout, rfl⟩ := Option.map_eq_some_iff.mp h
  exact effect_of_step hout

/-- A step of somebody else leaves us alone. -/
theorem soloStep_other {op : BitOp} (h : soloStep cfg σ (.other op) = some σ') :
    op.InRange cfg.torrent.numPieces ∧ σ'.seed = σ.seed ∧ σ'.bitfield = (σ.bitfield.call op).1 := by
  simp only [soloStep] at h
  split at h
  next hop =>
    obtain rfl := Option.some.inj h
    exact ⟨hop, rfl, rfl⟩
  next => cases h

theorem soloInv_new (cfg : Config) : (Solo.new cfg).Inv cfg where
  bitfield := Bitfield.inv_zero _
  seed := fun _ => known_new cfg

theorem Solo.Inv.known (h : σ.Inv cfg) (he : Effect cfg b σ.seed a s') : Known cfg σ.seed :=
  h.seed he.alive

/-- One step keeps what every run keeps. -/
theorem soloInv_step {a : SoloAct} (h : σ.Inv cfg) (hstep : soloStep cfg σ a = some σ') :
    σ'.Inv cfg := by
  have hn := cfg.torrent.numPieces_lt
  cases a with
  | own a =>
    obtain ⟨he, hb⟩ := soloStep_own hstep
    have hk := h.known he
    refine ⟨?_, known_step h.bitfield hk he⟩
    rw [hb]
    exact Bitfield.inv_after h.bitfield hn fun o ho => hk.bitOp_inRange ho
  | other op =>
    obtain ⟨hop, hs, hb⟩ := soloStep_other hstep
    refine ⟨?_, by rw [hs]; exact h.seed⟩
    rw [hb]
    exact Bitfield.inv_call h.bitfield hn hop

/-- What the others do only adds pieces. -/
theorem owns_of_soloStep {a : SoloAct} (h : σ.Inv cfg)
    (hstep : soloStep cfg σ a = some σ') {i : Nat}
    (hi : σ.bitfield.Owns i) : σ'.bitfield.Owns i := by
  have hn := cfg.torrent.numPieces_lt
  cases a with
  | own a =>
    obtain ⟨he, hb⟩ := soloStep_own hstep
    rw [hb]
    exact Bitfield.owns_after h.bitfield hn (fun o ho => (h.known he).bitOp_inRange ho) hi
  | other op =>
    obtain ⟨hop, -, hb⟩ := soloStep_other hstep
    rw [hb]
    exact (Bitfield.owns_call h.bitfield hn hop i).mpr (Or.inl hi)

end Solo

/-! ## A small torrent -/

/-- SHA-1 of the one-byte strings 0, 1 and 2. -/
def sha1Byte : List UInt8 → Digest
  | [0] =>
    #v[91, 169, 60, 157, 176, 207, 249, 63, 82, 181, 33, 215, 66, 14, 67, 246, 237, 162, 120, 79]
  | [1] =>
    #v[191, 139, 69, 48, 216, 210, 70, 221, 116, 172, 83, 161, 52, 113, 187, 161, 121, 65, 223,
      247]
  | [2] =>
    #v[196, 234, 33, 187, 54, 91, 190, 234, 245, 242, 198, 84, 136, 62, 86, 209, 30, 67, 196, 78]
  | _ => Vector.replicate 20 0

/-- A torrent of two pieces of one byte each, 1 and 2. -/
def twoPieces (p : Profile) : Config where
  profile := p
  torrent :=
    { info :=
        { name := "two"
          pieceLength := 1
          pieces := [sha1Byte [1], sha1Byte [2]]
          downloadType := .singleFile 2 }
      length := 2
      len_eq := rfl
      length_lt := by decide
      pieceLength_pos := by decide
      pieceLength_lt := by decide }
  sha1 := sha1Byte

end BitTorrent
