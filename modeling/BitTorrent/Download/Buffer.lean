import BitTorrent.Download.Merge
import BitTorrent.Download.Once

/-!
# What the buffer holds

The buffer of `File::download` in every run, whatever the peers send: it keeps
its length, and a piece of it is the zeros it was allocated with until a message
brings the piece, and from then on has the hash the torrent asks for
(`buffer_verified`). So corrupt data never gets into the buffer.

Nor does the receive loop panic: the splice of a message is in range, and the
subtraction of `remaining()` does not overflow. `File::download` can panic in
`pick_seeds`, where it waits for `check_is_seed`, but then it has not received
anything yet.

The history of the run is that of `Download.Delivery`, and the buffer is a function
of the messages received in it: what the loop makes of them, one after the other
(`Sys.handleAll`). A message in the queue has passed its validation, because nothing
else is sent (`message_sound`), and the queue does not change messages. `Sys.Held`
puts this together.

There is no condition on the peers or on the run. Whether a piece arrives at all is
not said here, but in `Download.Complete`.
-/

namespace BitTorrent

open Mailbox (Event Balanced log)

/-- A message carries all the bytes of a piece, with the right hash. -/
def DownloaderMsg.Sound (cfg : Config) : DownloaderMsg → Prop
  | .piece index length bytes => index < cfg.torrent.numPieces ∧
    length = cfg.torrent.pieceLen index ∧ bytes.length = length ∧
    cfg.torrent.info.pieces[index]? = some (cfg.sha1 bytes)
  | .disconnect _ => True

/-- The messages the receive loop has received bring the piece `i`. -/
def Brings (i : Nat) (seen : List DownloaderMsg) : Prop :=
  ∃ m ∈ seen, m.pieceIndex = some i

/-- The piece `i` of the buffer after the messages `seen`. -/
structure PieceHeld (cfg : Config) (bytes : List UInt8) (seen : List DownloaderMsg) (i : Nat) :
    Prop where
  verified : Brings i seen → cfg.torrent.info.pieces[i]? = some (cfg.sha1 (cfg.piece bytes i))
  untouched : ¬ Brings i seen → cfg.piece bytes i = List.replicate (cfg.torrent.pieceLen i) 0

/-- `pick_seeds` is not over. -/
def MainPhase.picks : MainPhase → Bool
  | .starting | .picking _ => true
  | .receiving | .received | .returned _ | .failed | .panicked => false

/-- What `File::download` keeps. It receives nothing before `pick_seeds` is over,
and if it has panicked, it was there: the receive loop does not panic. -/
structure Sys.Held (su : Setup) (σ : Sys) (seen : List DownloaderMsg) : Prop where
  picking : σ.main.picks = true → seen = []
  running : σ.main = .panicked → seen = []
  folded : σ.bytes = ((Sys.new su).handleAll su seen).bytes
  length : σ.bytes.length = su.cfg.torrent.length
  piece : ∀ i, i < su.cfg.torrent.numPieces → PieceHeld su.cfg σ.bytes seen i
  returned : ∀ bytes, σ.main = .returned bytes → bytes = σ.bytes ∧
    ∀ i, i < su.cfg.torrent.numPieces → σ.bitfield.Owns i

section Buffer

variable {su : Setup} {σ σ' τ : Sys} {act : Action} {k i : Nat} {s : SeedDownloader}
variable {m : DownloaderMsg} {seen : List DownloaderMsg} {h : List (Event Nat DownloaderMsg)}

/-- A downloader sends what it has verified. -/
theorem message_sound (hi : σ.Inv su) (hk : σ.seeds[k]? = some s) (hm : s.message k = some m) :
    m.Sound su.cfg := by
  have hph := (hi.known k s hk (message_alive hm)).phase
  unfold SeedDownloader.message at hm
  split at hm
  next hs =>
    obtain rfl := Option.some.inj hm
    rw [hs] at hph
    exact hph
  next => obtain rfl := Option.some.inj hm; exact trivial
  next => cases hm

/-- The buffer after a message depends on the buffer before it only. -/
theorem handle_bytes (hb : τ.bytes = σ.bytes) :
    (τ.handle su m).bytes = (σ.handle su m).bytes := by
  unfold Sys.handle
  cases m with
  | disconnect => exact hb
  | piece index length bytes =>
    dsimp only
    rw [hb]
    cases splice σ.bytes (index * su.cfg.torrent.info.pieceLength)
        (index * su.cfg.torrent.info.pieceLength + length) bytes with
    | none => rfl
    | some v => rfl

/-- One message more brings its piece. -/
theorem brings_append : Brings i (seen ++ [m]) ↔ Brings i seen ∨ m.pieceIndex = some i := by
  constructor
  · intro h
    obtain ⟨m', hm', hi⟩ := h
    rcases List.mem_append.mp hm' with hm' | hm'
    · exact Or.inl ⟨m', hm', hi⟩
    · exact Or.inr (List.mem_singleton.mp hm' ▸ hi)
  · intro h
    rcases h with ⟨m', hm', hi⟩ | hi
    · exact ⟨m', List.mem_append_left _ hm', hi⟩
    · exact ⟨m, List.mem_append_right _ (List.mem_singleton_self m), hi⟩

/-- A sound message is put where it belongs, and the other pieces stay. -/
theorem handle_sound (hlen : σ.bytes.length = su.cfg.torrent.length) (hm : m.Sound su.cfg) :
    (σ.handle su m).main = .received ∧ (σ.handle su m).bytes.length = su.cfg.torrent.length ∧
    ∀ i, (m.pieceIndex = some i →
        su.cfg.torrent.info.pieces[i]? = some
          (su.cfg.sha1 (su.cfg.piece (σ.handle su m).bytes i))) ∧
      (m.pieceIndex ≠ some i →
        su.cfg.piece (σ.handle su m).bytes i = su.cfg.piece σ.bytes i) := by
  cases m with
  | disconnect addr => exact ⟨rfl, hlen, fun i => ⟨(fun h => by cases h), fun _ => rfl⟩⟩
  | piece index length payload =>
    obtain ⟨hlt, rfl, hpayload, hhash⟩ := hm
    have hend := su.cfg.torrent.end_le hlt
    obtain ⟨v, hv⟩ : ∃ v, splice σ.bytes (index * su.cfg.torrent.info.pieceLength)
        (index * su.cfg.torrent.info.pieceLength + su.cfg.torrent.pieceLen index)
        payload = some v :=
      ⟨_, splice_of_le (Nat.le_add_right _ _) (by omega)⟩
    have heq : σ.handle su (.piece index (su.cfg.torrent.pieceLen index) payload) =
        { σ with bytes := v, main := .received } := by
      unfold Sys.handle
      dsimp only
      rw [hv]
    rw [heq]
    refine ⟨rfl, ?_, fun i => ⟨fun hi => ?_, fun hi => ?_⟩⟩
    · show v.length = _
      rw [splice_length hv (by omega), hlen]
    · obtain rfl := Option.some.inj hi
      show _ = some (su.cfg.sha1 (su.cfg.piece v index))
      rw [piece_splice_self hv hpayload]
      exact hhash
    · exact piece_splice_ne hv hpayload fun heq => hi (congrArg some heq)

/-- The receive loop takes a sound message. -/
theorem Sys.Held.handle (hh : σ.Held su seen) (hb : τ.bytes = σ.bytes) (hm : m.Sound su.cfg) :
    (τ.handle su m).Held su (seen ++ [m]) := by
  obtain ⟨hmain, hlen, hpiece⟩ := @handle_sound su τ m (hb ▸ hh.length) hm
  refine ⟨by rw [hmain]; exact (nomatch ·), by rw [hmain]; exact (nomatch ·), ?_, hlen,
    fun i hi => ?_, fun bytes hs => ?_⟩
  · rw [handle_bytes hb, handle_bytes hh.folded]
    unfold Sys.handleAll
    rw [List.foldl_append]
    rfl
  · obtain ⟨hself, hother⟩ := hpiece i
    have hold := hh.piece i hi
    by_cases him : m.pieceIndex = some i
    · exact ⟨fun _ => hself him, fun hno => absurd (brings_append.mpr (Or.inr him)) hno⟩
    · refine ⟨fun hbr => ?_, fun hno => ?_⟩
      · rw [hother him, hb]
        exact hold.verified ((brings_append.mp hbr).resolve_right him)
      · rw [hother him, hb]
        exact hold.untouched fun hbr => hno (brings_append.mpr (Or.inl hbr))
  · rw [hmain] at hs
    cases hs

/-- A step that leaves the buffer alone. -/
theorem Sys.Held.keep (hh : σ.Held su seen) (hb : σ'.bytes = σ.bytes)
    (hpick : σ'.main.picks = true → seen = []) (hrun : σ'.main = .panicked → seen = [])
    (hret : ∀ bytes, σ'.main = .returned bytes → bytes = σ'.bytes ∧
      ∀ i, i < su.cfg.torrent.numPieces → σ'.bitfield.Owns i) : σ'.Held su seen where
  picking := hpick
  running := hrun
  folded := hb.trans hh.folded
  length := by rw [hb]; exact hh.length
  piece := fun i hi => by rw [hb]; exact hh.piece i hi
  returned := hret

/-- A step of a downloader. -/
theorem Sys.Held.task (hh : σ.Held su seen) (hb : σ'.bytes = σ.bytes) (hmain : σ'.main = σ.main)
    (hown : ∀ i, σ.bitfield.Owns i → σ'.bitfield.Owns i) : σ'.Held su seen := by
  refine hh.keep hb (hmain ▸ hh.picking) (hmain ▸ hh.running) fun bytes hs => ?_
  obtain ⟨heq, hall⟩ := hh.returned bytes (hmain ▸ hs)
  exact ⟨heq.trans hb.symm, fun i hi => hown i (hall i hi)⟩

/-- `pick_seeds` goes on, or ends. -/
theorem Sys.Held.phase (hh : σ.Held su seen) (hs : σ.main.picks = true) {phase : MainPhase}
    (hret : ∀ bytes, phase ≠ .returned bytes) : Sys.Held su { σ with main := phase } seen :=
  hh.keep rfl (fun _ => hh.picking hs) (fun _ => hh.picking hs)
    fun bytes hs => absurd hs (hret bytes)

theorem held_new (su : Setup) : (Sys.new su).Held su [] where
  picking := fun _ => rfl
  running := fun _ => rfl
  folded := rfl
  length := List.length_replicate
  piece := fun i hi => by
    refine ⟨fun hbr => ?_, fun _ => ?_⟩
    · obtain ⟨m, hm, -⟩ := hbr
      cases hm
    · have hend := su.cfg.torrent.end_le hi
      show (List.drop _ (List.replicate _ _)).take _ = _
      rw [List.drop_replicate, List.take_replicate, Nat.min_eq_left (by omega)]
  returned := fun bytes hs => by cases hs

/-- Only a receive adds to what was received. -/
theorem received_event (hact : ∀ j, act ≠ .recv j) :
    log Event.received ((σ.event su act).toList ++ h) = log Event.received h := by
  cases he : σ.event su act with
  | none => rfl
  | some e =>
    have hno : e.received = none := by
      unfold Sys.event at he
      split at he
      next => obtain ⟨m, -, rfl⟩ := Option.map_eq_some_iff.mp he; rfl
      next =>
        split at he
        next => cases he
        next => obtain ⟨m, -, rfl⟩ := Option.map_eq_some_iff.mp he; rfl
      next => exact absurd rfl (hact _)
      next => obtain ⟨m, -, rfl⟩ := Option.map_eq_some_iff.mp he; rfl
      next => cases he
    show log Event.received (e :: h) = _
    rw [Mailbox.log_cons, hno]
    exact List.append_nil _

theorem received_recv {j : Nat} {q : List DownloaderMsg} (hq : σ.chan.queue = m :: q) :
    log Event.received ((σ.event su (.recv j)).toList ++ h) = log Event.received h ++ [m] := by
  rw [event_recv hq]
  exact Mailbox.log_cons _ _ _

/-- The receive loop with the bitfield locked. It returns when nothing remains. -/
theorem Sys.Held.check (hh : σ.Held su seen) (hi : σ.Inv su) (lock : FifoMutex Task) :
    Sys.Held su { σ with lock := lock, main := σ.check su } seen := by
  have hn := su.cfg.torrent.numPieces_lt
  have hrem := hi.bitfield.remaining_eq hn su.cfg.profile
  refine hh.keep rfl (fun hs => ?_) (fun hs => ?_) fun bytes hs => ?_
  · dsimp only at hs
    unfold Sys.check at hs
    rw [hrem] at hs
    split at hs <;> cases hs
  · dsimp only at hs
    unfold Sys.check at hs
    rw [hrem] at hs
    split at hs
    next heq => cases heq
    next => cases hs
    next => cases hs
  · dsimp only at hs
    unfold Sys.check at hs
    rw [hrem] at hs
    split at hs
    next => cases hs
    next heq =>
      refine ⟨(MainPhase.returned.inj hs).symm, fun i hlt => ?_⟩
      by_contra hun
      have hmem := (Bitfield.mem_missing hi.bitfield).mpr ⟨hlt, hun⟩
      rw [Finset.card_eq_zero.mp (Option.some.inj heq)] at hmem
      cases hmem
    next => cases hs

/-- A step that receives nothing. -/
theorem Sys.Held.other (hh : σ.Held su seen) (hi : σ.Inv su) (hact : ∀ j, act ≠ .recv j)
    (hstep : sysStep su σ act = some σ') : σ'.Held su seen := by
  have howns : ∀ i, σ.bitfield.Owns i → σ'.bitfield.Owns i := fun i =>
    (change_of_step hstep).seeds.owns hi
  cases change_of_step hstep with
  | main hm =>
    cases hm with
    | pickSeeds hs | badId hs | refused hs | panicked hs | picked hs =>
      exact hh.phase (by rw [hs]; rfl) fun _ h => by cases h
    | closed => exact hh.keep rfl (nomatch ·) (nomatch ·) fun _ hs => by cases hs
  | spawn hs hphase =>
    have hseen := hh.picking (by rw [hs]; rfl)
    refine hh.keep rfl (fun _ => hseen) (fun _ => hseen) fun bytes hs' => ?_
    dsimp only at hs'
    rcases hphase with rfl | rfl <;> cases hs'
  | finish hs hlock => exact hh.check hi _
  | lock | own | crash | sendBlocked | sendOk | sendErr => exact hh.task rfl rfl howns
  | recv | recvAdmit => exact absurd rfl (hact _)

/-- One step of the system keeps the buffer. Only `recv` writes to it. -/
theorem held_step (hi : σ.Inv su) (hq : ∀ m ∈ σ.chan.queue, m.Sound su.cfg)
    (hh : σ.Held su (log Event.received h)) (hstep : sysStep su σ act = some σ') :
    σ'.Held su (log Event.received ((σ.event su act).toList ++ h)) := by
  by_cases hact : ∀ j, act ≠ .recv j
  · rw [received_event hact]
    exact hh.other hi hact hstep
  · simp only [not_forall, not_not] at hact
    obtain ⟨j, rfl⟩ := hact
    cases change_of_step hstep with
    | main hm => cases hm
    | recv hs hr hadm =>
      have hqueue := Chan.recv_none hr hadm
      rw [received_recv hqueue]
      exact hh.handle rfl (hq _ (hqueue ▸ List.mem_cons_self ..))
    | recvAdmit hs hr hadm hk hm =>
      obtain ⟨m', q, -, hqueue, -⟩ := Chan.recv_admitted hr hadm
      rw [received_recv hqueue]
      exact hh.handle rfl (hq _ (hqueue ▸ List.mem_cons_self ..))

theorem queue_sound (hi : σ.Inv su) (hw : σ.Wired) (hq : ∀ m ∈ σ.chan.queue, m.Sound su.cfg)
    (hstep : sysStep su σ act = some σ') : ∀ m ∈ σ'.chan.queue, m.Sound su.cfg := by
  intro m hm
  rcases (change_of_step hstep).queue hw hm with hm | ⟨k, s, hk, hms⟩
  · exact hq m hm
  · exact message_sound hi hk hms

/-- Every run keeps the buffer. -/
theorem held_run {acts : List Action}
    (hrun : run (traced (sysStep su) (Sys.event su)) (Sys.new su, []) acts = some (σ, h)) :
    σ.Held su (log Event.received h) := by
  have hkeep := run_invariant
    (P := fun p : Sys × List (Event Nat DownloaderMsg) => (p.1.Inv su ∧ p.1.Wired) ∧
      (∀ m ∈ p.1.chan.queue, m.Sound su.cfg) ∧ p.1.Held su (log Event.received p.2))
    (fun p a p' hp hs => by
      obtain ⟨hstep, hh⟩ := traced_eq_some hs
      obtain ⟨⟨hi, hw⟩, hq, hheld⟩ := hp
      rw [hh]
      exact ⟨⟨inv_step hi hstep, wired_step hw hstep⟩, queue_sound hi hw hq hstep,
        held_step hi hq hheld hstep⟩)
    ⟨⟨inv_new su, wired_new su⟩, (fun m hm => by cases hm), held_new su⟩ hrun
  exact hkeep.2.2

/-- **The buffer holds nothing but verified pieces.** In every run, whatever the
peers send, the receive loop of `File::download` does not panic, its buffer is
what the messages received so far make of the zeros, and each piece of it is
verified once a message has brought it and all zeros before. What it returns is
this buffer, when every piece is owned. A panic of `File::download` is one of
`pick_seeds`, before the first message. -/
theorem buffer_verified (su : Setup) (acts : List Action) (σ : Sys)
    (h : List (Event Nat DownloaderMsg))
    (hrun : run (traced (sysStep su) (Sys.event su)) (Sys.new su, []) acts = some (σ, h)) :
    σ.Held su (log Event.received h) :=
  held_run hrun

theorem buffer_verified_two : ∃ σ h,
    run (traced (sysStep (lone .dev)) (Sys.event (lone .dev))) (Sys.new (lone .dev), []) inStep =
      some (σ, h) ∧ (log Event.received h).length = 2 ∧
    σ.Held (lone .dev) (log Event.received h) := by
  obtain ⟨⟨σ, h⟩, hrun, htwo⟩ := Option.map_eq_some_iff.mp
    (show (run (traced (sysStep (lone .dev)) (Sys.event (lone .dev))) (Sys.new (lone .dev), [])
      inStep).map (fun p => (log Event.received p.2).length) = some 2 by decide +kernel)
  exact ⟨σ, h, hrun, htwo, buffer_verified (lone .dev) inStep σ h hrun⟩

end Buffer

end BitTorrent
