import BitTorrent.Download.Assembly
import BitTorrent.Download.Wiring

/-!
# What a finished download returns

The receive loop returns its buffer when `remaining()` is `0`. A piece is owned
before its message is even sent, so the buffer may lack pieces that are still on
their way. `Sys.Has` says where an owned piece can be as long as the loop
runs: in the buffer, in the queue, or with the downloader that is sending it.

`download_complete` gives the condition under which the buffer is complete when
it is returned: the pieces still queued at that moment are in the buffer
already, no piece is set that closes a bitfield without padding (its `set`
panics and the piece is dropped), and the bookkeeping of the blocks is sound.

The peers are taken to deliver the bytes of the file (`Action.Delivers`), since no
condition on the code helps against others. The file is the one that the hashes of
the torrent are those of (`Genuine`). What a downloader assembles is then a piece of
it (`SeedKept`), by `Filled` of `Download.Assembly` with the bytes of the file for
`W`, and it passes its validation.

The rest is to follow each piece. A step moves it from one of the three places to
the next, or leaves it where it is, and the invariant of the run (`Sys.Kept`) says
so of all of them at once.
-/

namespace BitTorrent

/-- The piece `i` in the bytes of a file. -/
def Config.piece (cfg : Config) (bytes : List UInt8) (i : Nat) : List UInt8 :=
  (bytes.drop (i * cfg.torrent.info.pieceLength)).take (cfg.torrent.pieceLen i)

/-- The bytes the torrent describes. -/
structure Genuine (cfg : Config) (file : List UInt8) : Prop where
  length : file.length = cfg.torrent.length
  hash : ∀ i, i < cfg.torrent.numPieces →
    cfg.torrent.info.pieces[i]? = some (cfg.sha1 (cfg.piece file i))

/-- A block that is delivered carries the genuine bytes, as far as it lies in its
piece. -/
def Action.Delivers (cfg : Config) (file : List UInt8) : Action → Prop
  | .seed _ (.deliver (.piece index begin block)) =>
    block.take (cfg.torrent.pieceLen index.toNat - begin.toNat) =
      ((cfg.piece file index.toNat).drop begin.toNat).take block.length
  | _ => True

instance (cfg : Config) (file : List UInt8) : ∀ a : Action, Decidable (a.Delivers cfg file)
  | .seed _ (.deliver (.piece ..)) => inferInstanceAs (Decidable (_ = _))
  | .seed _ (.deliver .keepAlive) | .seed _ (.deliver .choke) | .seed _ (.deliver .unchoke)
  | .seed _ (.deliver .interested) | .seed _ (.deliver .notInterested)
  | .seed _ (.deliver (.have _)) | .seed _ (.deliver (.bitfield _))
  | .seed _ (.deliver (.request ..)) | .seed _ (.deliver (.cancel ..)) => isTrue trivial
  | .seed _ .check | .seed _ (.keepAlive _) | .seed _ .streamEnd | .seed _ .streamError
  | .seed _ .setPiece | .seed _ .sendOk | .seed _ .sendErr | .seed _ .release
  | .seed _ (.request ..) | .seed _ .pick | .seed _ (.start _) => isTrue trivial
  | .pickSeeds | .peer _ | .peerPanic | .picked | .recv _ | .recvClosed | .lock _ | .finish
  | .readPanic _ | .send _ | .sendErr _ => isTrue trivial

/-- The bytes are all there. -/
structure Whole (cfg : Config) (file bytes : List UInt8) : Prop where
  length : bytes.length = cfg.torrent.length
  piece : ∀ i, i < cfg.torrent.numPieces → cfg.piece bytes i = cfg.piece file i
  hash : ∀ i, i < cfg.torrent.numPieces →
    cfg.torrent.info.pieces[i]? = some (cfg.sha1 (cfg.piece bytes i))

/-- The piece of a message is in the buffer. -/
def DownloaderMsg.Written (cfg : Config) (bytes : List UInt8) : DownloaderMsg → Prop
  | .piece index _ payload => cfg.piece bytes index = payload
  | .disconnect _ => True

instance (cfg : Config) (bytes : List UInt8) : ∀ m : DownloaderMsg, Decidable (m.Written cfg bytes)
  | .piece index _ payload => inferInstanceAs (Decidable (cfg.piece bytes index = payload))
  | .disconnect _ => isTrue trivial

/-- No piece gets lost by the step. A piece is not started with blocks of it still
outstanding, is not set when its `set` panics, and when the receive loop finishes
nothing is queued that is not in the buffer. -/
def Unlost (su : Setup) (σ : Sys) : Action → Prop
  | .seed k (.start _) => ∀ s ∈ σ.seeds[k]?, s.Fresh
  | .seed k .setPiece => ∀ e ∈ σ.completing k, σ.bitfield.Owns e.1 ∨ ¬ σ.bitfield.Closes e.1
  | .finish => σ.bitfield.remaining su.cfg.profile = some 0 →
    ∀ m ∈ σ.chan.queue, m.Written su.cfg σ.bytes
  | _ => True

instance (su : Setup) (σ : Sys) : ∀ a : Action, Decidable (Unlost su σ a)
  | .seed k (.start _) => inferInstanceAs (Decidable (∀ s ∈ σ.seeds[k]?, s.Fresh))
  | .seed k .setPiece => inferInstanceAs (Decidable (∀ e ∈ σ.completing k, _ ∨ ¬ _))
  | .finish => inferInstanceAs (Decidable (_ = _ → ∀ m ∈ σ.chan.queue, m.Written su.cfg σ.bytes))
  | .seed _ .check | .seed _ (.keepAlive _) | .seed _ .streamEnd | .seed _ .streamError
  | .seed _ (.deliver _) | .seed _ .sendOk | .seed _ .sendErr | .seed _ .release
  | .seed _ (.request ..) | .seed _ .pick => isTrue trivial
  | .pickSeeds | .peer _ | .peerPanic | .picked | .recv _ | .recvClosed | .lock _ | .readPanic _
  | .send _ | .sendErr _ => isTrue trivial

/-! ## Pieces of the buffer -/

section Buffer

variable {cfg : Config} {file bytes bytes' new : List UInt8} {i j o : Nat}

theorem piece_getElem? (cfg : Config) (bytes : List UInt8) (i o : Nat) :
    (cfg.piece bytes i)[o]? =
      if o < cfg.torrent.pieceLen i then bytes[i * cfg.torrent.info.pieceLength + o]?
      else none := by
  unfold Config.piece
  rw [List.getElem?_take, List.getElem?_drop]

theorem piece_length (hlen : bytes.length = cfg.torrent.length) (hi : i < cfg.torrent.numPieces) :
    (cfg.piece bytes i).length = cfg.torrent.pieceLen i := by
  have hend := cfg.torrent.end_le hi
  unfold Config.piece
  rw [List.length_take, List.length_drop]
  omega

/-- The splice of a piece writes it. -/
theorem piece_splice_self (h : splice bytes (i * cfg.torrent.info.pieceLength)
      (i * cfg.torrent.info.pieceLength + cfg.torrent.pieceLen i) new = some bytes')
    (hnew : new.length = cfg.torrent.pieceLen i) : cfg.piece bytes' i = new := by
  refine List.ext_getElem? fun o => ?_
  rw [piece_getElem?]
  split
  next ho =>
    rw [splice_getElem?_mem h (by omega) (by omega) (by omega)]
    congr 1
    omega
  next ho => rw [List.getElem?_eq_none (by omega)]

/-- And leaves the others as they are. -/
theorem piece_splice_ne (h : splice bytes (i * cfg.torrent.info.pieceLength)
      (i * cfg.torrent.info.pieceLength + cfg.torrent.pieceLen i) new = some bytes')
    (hnew : new.length = cfg.torrent.pieceLen i) (hij : i ≠ j) :
    cfg.piece bytes' j = cfg.piece bytes j := by
  refine List.ext_getElem? fun o => ?_
  rw [piece_getElem?, piece_getElem?]
  split
  next ho =>
    refine splice_getElem?_not_mem h (by omega) ?_
    rcases Nat.lt_or_gt_of_ne hij with hlt | hgt
    · have := cfg.torrent.pieces_disjoint hlt
      omega
    · have := cfg.torrent.pieces_disjoint hgt
      omega
  next => rfl

/-- A buffer of the right bytes is the piece. -/
theorem eq_piece (hlen : bytes.length = cfg.torrent.pieceLen i)
    (h : ∀ o, o < cfg.torrent.pieceLen i → ∃ byte, bytes[o]? = some byte ∧
      (cfg.piece file i)[o]? = some byte) : bytes = cfg.piece file i := by
  refine List.ext_getElem? fun o => ?_
  by_cases ho : o < cfg.torrent.pieceLen i
  · obtain ⟨byte, hb, hp⟩ := h o ho
    rw [hb, hp]
  · rw [List.getElem?_eq_none (by omega), piece_getElem?, if_neg ho]

/-- What a genuine block writes. -/
theorem delivers_getElem? {k : Nat} {index begin : UInt32} {block : List UInt8}
    (h : Action.Delivers cfg file (.seed k (.deliver (.piece index begin block)))) {byte : UInt8}
    (ho : begin.toNat + o < cfg.torrent.pieceLen index.toNat) (hb : block[o]? = some byte) :
    (cfg.piece file index.toNat)[begin.toNat + o]? = some byte := by
  have hlt : o < block.length := (List.getElem?_eq_some_iff.mp hb).1
  have heq := congrArg (fun l => l[o]?) h
  simp only [List.getElem?_take, List.getElem?_drop] at heq
  rw [if_pos (by omega), if_pos hlt, hb] at heq
  exact heq.symm

end Buffer

/-! ## The downloaders -/

/-- What a downloader fed genuine blocks keeps. -/
structure SeedKept (cfg : Config) (file : List UInt8) (s : SeedDownloader) : Prop where
  booked : Booked cfg s
  filled : Filled (fun k o byte => (cfg.piece file k)[o]? = some byte) s
  sends : ∀ i l bytes, s.phase = .sending i l bytes → bytes = cfg.piece file i

/-- A message carries a piece of the file. -/
def DownloaderMsg.Genuine (cfg : Config) (file : List UInt8) : DownloaderMsg → Prop
  | .piece index length payload => index < cfg.torrent.numPieces ∧
    length = cfg.torrent.pieceLen index ∧ payload = cfg.piece file index
  | .disconnect _ => True

section Seed

variable {cfg : Config} {file : List UInt8} {b : Bitfield} {s s' : SeedDownloader} {a : SeedAct}
variable {i k : Nat}

theorem seedKept_new (cfg : Config) (file : List UInt8) : SeedKept cfg file .new where
  booked := ⟨known_new cfg, fun k dl hdl => by simp [SeedDownloader.new] at hdl,
    fun x hx => by simp [SeedDownloader.new] at hx⟩
  filled := fun k dl hdl => by simp [SeedDownloader.new] at hdl
  sends := fun i l bytes hs => by cases hs

/-- Only a piece that was just set is about to be sent. -/
theorem Effect.sending (he : Effect cfg b s a s') {l : Nat} {bytes : List UInt8}
    (hs' : s'.phase = .sending i l bytes) :
    s.phase = .complete i ∧ ∃ dl, s.pendingPieces[i]? = some dl ∧ bytes = dl.bytes := by
  cases he with
  | move hm => cases hm <;> cases hs'
  | valid hs hb hdl hvalid =>
    obtain ⟨rfl, -, rfl⟩ := Phase.sending.inj hs'
    exact ⟨hs, _, hdl, rfl⟩
  | choke | unchoke | orphan | invalid | requestFailed | start | startFailed => cases hs'
  | block => dsimp only at hs'; split at hs' <;> cases hs'
  | request => dsimp only [SeedDownloader.goto] at hs'; split at hs' <;> cases hs'
  | panic hcause hpanic => rw [hpanic] at hs'; cases hs'

/-- A piece that is complete is the genuine one. -/
theorem SeedKept.complete (h : SeedKept cfg file s) (hs : s.phase = .complete i)
    {dl : PieceDownload} (hdl : s.pendingPieces[i]? = some dl) : dl.bytes = cfg.piece file i := by
  obtain ⟨dl', hdl', -, hall⟩ := h.booked.complete_filled h.filled hs
  obtain rfl := Option.some.inj (hdl.symm.trans hdl')
  have hknown := h.booked.piece i dl hdl
  exact eq_piece (hknown.bytes.trans hknown.length) fun o ho => hall o (hknown.length ▸ ho)

/-- So its validation does not fail. -/
theorem SeedKept.sets (h : SeedKept cfg file s) (hfile : Genuine cfg file)
    (hs : s.phase = .complete i) (he : Effect cfg b s .setPiece s')
    (hpanic : (b.set i).2 ≠ .panicked) : ∃ l bytes, s'.phase = .sending i l bytes := by
  cases he with
  | move hm =>
    cases hm with
    | ignore hs' | leave hs' => rw [hs] at hs'; cases hs'
  | valid hs' =>
    obtain rfl := Phase.complete.inj (hs.symm.trans hs')
    exact ⟨_, _, rfl⟩
  | invalid hs' hb hdl hvalid =>
    obtain rfl := Phase.complete.inj (hs.symm.trans hs')
    have hknown := h.booked.piece i _ hdl
    have hhash := hfile.hash i hknown.lt
    rw [hknown.hash, ← h.complete hs hdl] at hhash
    rw [validatePiece, Option.some.inj hhash, beq_self_eq_true] at hvalid
    cases hvalid
  | panic hcause =>
    cases hcause with
    | set hs' hb =>
      obtain rfl := Phase.complete.inj (hs.symm.trans hs')
      exact absurd hb hpanic
    | notPending hs' hdl =>
      obtain rfl := Phase.complete.inj (hs.symm.trans hs')
      have hph := h.booked.phase
      rw [hs] at hph
      obtain ⟨dl, hdl'⟩ := hph
      rw [hdl] at hdl'
      cases hdl'

/-- What a downloader sends is a piece of the file. -/
theorem SeedKept.message (h : SeedKept cfg file s) {m : DownloaderMsg}
    (hm : s.message k = some m) : m.Genuine cfg file := by
  unfold SeedDownloader.message at hm
  split at hm
  next i l bytes hs =>
    obtain rfl := Option.some.inj hm
    have hph := h.booked.phase
    rw [hs] at hph
    exact ⟨hph.1, hph.2.1, h.sends i l bytes hs⟩
  next => obtain rfl := Option.some.inj hm; exact trivial
  next => cases hm

/-- One step of a downloader keeps genuine bytes genuine, if the block that it
receives is. -/
theorem seedKept_step (h : SeedKept cfg file s) (hb : Bitfield.Inv cfg.torrent.numPieces b)
    (he : Effect cfg b s a s') (hlive : s'.Alive) (hsmall : SmallPieces cfg) (hfresh : s.Fresh)
    (hblock : Action.Delivers cfg file (.seed k a)) : SeedKept cfg file s' where
  booked := booked_step hb h.booked he hlive hsmall hfresh
  filled := by
    refine filled_step h.booked.toKnown h.filled he hlive ?_ fun _ _ _ _ _ hw => hw
    intro index begin block ha hframed hmem o byte ho
    subst ha
    -- a block that was requested lies in its piece
    have hend := (h.booked.block _ hmem).end_le
    have hlen : asU32 block.length = block.length :=
      asU32_of_lt (by have : block.length + 9 < 2 ^ 32 := hframed; omega)
    have hlt : o < block.length := (List.getElem?_eq_some_iff.mp ho).1
    change begin.toNat + asU32 block.length ≤ cfg.torrent.pieceLen index.toNat at hend
    exact delivers_getElem? hblock (by omega) ho
  sends := by
    intro i l bytes hs'
    obtain ⟨hs, dl, hdl, rfl⟩ := he.sending hs'
    exact h.complete hs hdl

end Seed

/-! ## The whole download -/

/-- Where an owned piece is as long as the receive loop runs. -/
inductive Sys.Has (cfg : Config) (file : List UInt8) (σ : Sys) (i : Nat) : Prop
  | buffer (h : cfg.piece σ.bytes i = cfg.piece file i)
  | queued {l : Nat} {bytes : List UInt8} (h : .piece i l bytes ∈ σ.chan.queue)
  | sending {k l : Nat} {s : SeedDownloader} {bytes : List UInt8} (hk : σ.seeds[k]? = some s)
      (hs : s.phase = .sending i l bytes)

/-- What every run keeps in which no piece gets lost. -/
structure Sys.Kept (su : Setup) (file : List UInt8) (σ : Sys) : Prop extends
    Sys.Inv su σ, Sys.Wired σ where
  seed : ∀ (k : Nat) s, σ.seeds[k]? = some s → s.Alive → SeedKept su.cfg file s
  queue : ∀ m ∈ σ.chan.queue, m.Genuine su.cfg file
  length : σ.bytes.length = su.cfg.torrent.length
  covered : σ.main.ended = false → ∀ i, σ.bitfield.Owns i → σ.Has su.cfg file i
  returned : ∀ bytes, σ.main = .returned bytes → Whole su.cfg file bytes

section System

variable {su : Setup} {file : List UInt8} {σ σ' : Sys} {a : Action} {i k : Nat}
variable {s s' : SeedDownloader} {m : DownloaderMsg}

theorem Sys.kept_new (su : Setup) (file : List UInt8) : (Sys.new su).Kept su file where
  toInv := inv_new su
  toWired := wired_new su
  seed := fun k s hk => by simp [Sys.new] at hk
  queue := fun m hm => by cases hm
  length := List.length_replicate
  covered := fun _ i hi => absurd hi (Bitfield.zero_owns _ i)
  returned := fun bytes hs => by cases hs

/-- The receive loop puts a genuine piece where it belongs. -/
theorem handle_eq (hfile : Genuine su.cfg file)
    (hlen : σ.bytes.length = su.cfg.torrent.length) (hm : m.Genuine su.cfg file) :
    (σ.handle su m).main = .received ∧
      (σ.handle su m).bytes.length = su.cfg.torrent.length ∧
      (∀ i, su.cfg.piece σ.bytes i = su.cfg.piece file i →
        su.cfg.piece (σ.handle su m).bytes i = su.cfg.piece file i) ∧
      m.Written su.cfg (σ.handle su m).bytes := by
  cases m with
  | disconnect addr => exact ⟨rfl, hlen, fun _ h => h, trivial⟩
  | piece index length payload =>
    obtain ⟨hlt, rfl, rfl⟩ := hm
    have hend := su.cfg.torrent.end_le hlt
    have hpiece := piece_length hfile.length hlt
    obtain ⟨v, hv⟩ : ∃ v, splice σ.bytes (index * su.cfg.torrent.info.pieceLength)
        (index * su.cfg.torrent.info.pieceLength + su.cfg.torrent.pieceLen index)
        (su.cfg.piece file index) = some v :=
      ⟨_, splice_of_le (Nat.le_add_right _ _) (by omega)⟩
    have heq : σ.handle su (.piece index (su.cfg.torrent.pieceLen index)
        (su.cfg.piece file index)) = { σ with bytes := v, main := .received } := by
      unfold Sys.handle
      dsimp only
      rw [hv]
    rw [heq]
    refine ⟨rfl, ?_, fun i hi => ?_, piece_splice_self hv hpiece⟩
    · show v.length = _
      rw [splice_length hv (by omega), hlen]
    · show su.cfg.piece v i = _
      by_cases hii : index = i
      · rw [← hii]
        exact piece_splice_self hv hpiece
      · rw [piece_splice_ne hv hpiece hii]
        exact hi

theorem message_alive (hm : s.message k = some m) : s.Alive := by
  intro e he
  unfold SeedDownloader.message at hm
  rw [he] at hm
  cases hm

theorem Sys.Kept.message (h : σ.Kept su file) (hk : σ.seeds[k]? = some s)
    (hm : s.message k = some m) : m.Genuine su.cfg file :=
  (h.seed k s hk (message_alive hm)).message hm

/-! ### Where the pieces are -/

/-- A task moves on, and the piece it was sending is taken care of. -/
theorem Sys.Has.put {b : Bitfield} (h : σ.Has su.cfg file i) (hk : σ.seeds[k]? = some s)
    (hs : ∀ l bytes, s.phase = .sending i l bytes → .piece i l bytes ∈ σ.chan.queue) :
    (σ.put k b s').Has su.cfg file i := by
  cases h with
  | buffer h => exact .buffer h
  | queued h => exact .queued h
  | @sending j l t bytes hj ht =>
    by_cases hjk : j = k
    · subst hjk
      obtain rfl := Option.some.inj (hk.symm.trans hj)
      exact .queued (hs l bytes ht)
    · refine .sending (k := j) ?_ ht
      unfold Sys.put
      rw [List.getElem?_set_ne (Ne.symm hjk)]
      exact hj

theorem Sys.Has.mono (h : σ.Has su.cfg file i) (hb : σ'.bytes = σ.bytes)
    (hq : ∀ m ∈ σ.chan.queue, m ∈ σ'.chan.queue)
    (hs : ∀ (k : Nat) s, σ.seeds[k]? = some s → σ'.seeds[k]? = some s) :
    σ'.Has su.cfg file i := by
  cases h with
  | buffer h => exact .buffer (hb ▸ h)
  | queued h => exact .queued (hq _ h)
  | sending hk hs' => exact .sending (hs _ _ hk) hs'

/-- A message that is handled moves its piece to the buffer, and spoils no other. -/
theorem Sys.Has.handle (h : σ.Has su.cfg file i) (hfile : Genuine su.cfg file)
    (hlen : σ.bytes.length = su.cfg.torrent.length) (hm : m.Genuine su.cfg file) :
    (σ.handle su m).Has su.cfg file i := by
  cases h with
  | buffer h => exact .buffer ((handle_eq hfile hlen hm).2.2.1 i h)
  | queued h => exact .queued (by rw [(handle_wires m).2]; exact h)
  | sending hk hs => exact .sending (by rw [(handle_seeds m).1]; exact hk) hs

/-- The piece of the message that was received is in the buffer. -/
theorem has_received {l : Nat} {bytes : List UInt8} (hfile : Genuine su.cfg file)
    (hlen : σ.bytes.length = su.cfg.torrent.length)
    (hm : (DownloaderMsg.piece i l bytes).Genuine su.cfg file) :
    (σ.handle su (.piece i l bytes)).Has su.cfg file i :=
  .buffer ((handle_eq hfile hlen hm).2.2.2.trans hm.2.2)

/-- A receive takes the oldest message and leaves the pieces of the others where
they are. -/
theorem Sys.Has.pop (h : σ.Has su.cfg file i) {c : Chan Task DownloaderMsg channelCapacity}
    {q : List DownloaderMsg} (hq : σ.chan.queue = m :: q) (hc : ∀ x ∈ q, x ∈ c.queue) :
    (∃ l bytes, m = .piece i l bytes) ∨ Sys.Has su.cfg file { σ with chan := c } i := by
  cases h with
  | buffer h => exact Or.inr (.buffer h)
  | queued h =>
    rw [hq] at h
    rcases List.mem_cons.mp h with rfl | h
    · exact Or.inl ⟨_, _, rfl⟩
    · exact Or.inr (.queued (hc _ h))
  | sending hk hs => exact Or.inr (.sending hk hs)

/-- The piece that a step of a downloader sets is with that downloader. -/
theorem Sys.Kept.set_has (h : σ.Kept su file) (hfile : Genuine su.cfg file)
    (hok : Unlost su σ (.seed k .setPiece)) {dl : PieceDownload}
    (hc : σ.completing k = some (i, dl)) (hk : σ.seeds[k]? = some s)
    (he : Effect su.cfg σ.bitfield s .setPiece s') (hun : ¬ σ.bitfield.Owns i) (b : Bitfield) :
    (σ.put k b s').Has su.cfg file i := by
  obtain ⟨t, hk', hs, hdl⟩ := sys_completing hc
  obtain rfl := Option.some.inj (hk.symm.trans hk')
  have hlt := (known_of_completing h.toInv hc).lt
  have hpanic : (σ.bitfield.set i).2 ≠ .panicked := by
    intro hp
    obtain ⟨-, hcloses⟩ := (Bitfield.set_panics_iff_closes h.bitfield su.cfg.torrent.numPieces_lt
      hlt).mp hp
    exact (hok (i, dl) hc).elim hun fun hno => hno hcloses
  obtain ⟨l, bytes, hs'⟩ := (h.seed k s hk he.alive).sets hfile hs he hpanic
  refine .sending (k := k) ?_ hs'
  unfold Sys.put
  rw [List.getElem?_set_self (List.getElem?_eq_some_iff.mp hk).1]

/-- A step of a downloader by itself: a piece that it comes to own is on its way to
be sent. -/
theorem covered_own (h : σ.Kept su file) (hfile : Genuine su.cfg file) {a : SeedAct}
    (hok : Unlost su σ (.seed k a)) (hk : σ.seeds[k]? = some s) (hkind : a.kind ≠ .channel)
    (he : Effect su.cfg σ.bitfield s a s') (hopen : σ.main.ended = false)
    (hstep : sysStep su σ (.seed k a) = some (σ.put k (σ.bitfield.after (s.bitOp a)) s'))
    (hown : (σ.bitfield.after (s.bitOp a)).Owns i) :
    (σ.put k (σ.bitfield.after (s.bitOp a)) s').Has su.cfg file i := by
  by_cases hold : σ.bitfield.Owns i
  · refine (h.covered hopen i hold).put hk fun l bytes hs => ?_
    -- who is sending takes no step by itself
    have hnone := he.message_none (k := k) hkind
    unfold SeedDownloader.message at hnone
    rw [hs] at hnone
    cases hnone
  · rcases owns_of_step h.toInv hstep hown with hown | ⟨j, dl, ha, hc⟩
    · exact absurd hown hold
    · obtain ⟨rfl, rfl⟩ := Action.seed.inj ha
      exact h.set_has hfile hok hc hk he hold _

/-- The task of `File::download` moves as long as it is not over. -/
theorem MainMoves.open {phase : MainPhase} (h : MainMoves su σ a phase) :
    σ.main.ended = false := by
  cases h with
  | pickSeeds hs | badId hs | refused hs | panicked hs | picked hs | closed hs => rw [hs]; rfl

/-- As long as the receive loop runs no owned piece gets lost. -/
theorem covered_step (h : σ.Kept su file) (hfile : Genuine su.cfg file) (hok : Unlost su σ a)
    (hstep : sysStep su σ a = some σ') (hopen : σ'.main.ended = false) :
    ∀ i, σ'.bitfield.Owns i → σ'.Has su.cfg file i := by
  intro i hown
  cases change_of_step hstep with
  | main hm =>
    exact (h.covered hm.open i hown).mono rfl (fun _ hq => hq) (fun _ _ hk => hk)
  | spawn hs hphase =>
    exact (h.covered (by rw [hs]; rfl) i hown).mono rfl (fun _ hq => hq) fun k s hk =>
      List.getElem?_append_left (List.getElem?_eq_some_iff.mp hk).1 ▸ hk
  | lock hq hw =>
    exact (h.covered hopen i hown).mono rfl (fun _ hq => hq) (fun _ _ hk => hk)
  | finish hs hlock =>
    exact (h.covered (by rw [hs]; rfl) i hown).mono rfl (fun _ hq => hq) (fun _ _ hk => hk)
  | own hk hkind hlock he =>
    exact covered_own h hfile hok hk hkind he hopen hstep hown
  | crash hk hs =>
    -- who reads from its peer is not sending
    exact (h.covered hopen i hown).put hk fun l bytes hsend => by rw [hs] at hsend; cases hsend
  | sendBlocked hopen' hk hm hnew hfull =>
    refine (h.covered hopen i hown).mono rfl (fun m hq => ?_) (fun _ _ hk => hk)
    dsimp only
    rw [(Chan.send_of_full hfull).1]
    exact hq
  | @sendOk k s m hopen' hk hm hnew hroom =>
    have hqueue := (Chan.send_of_not_full (t := Task.seed k) (m := m) hroom).1
    have hhas : Sys.Has su.cfg file { σ with chan := σ.chan.send (.seed k) m } i := by
      refine (h.covered hopen i hown).mono rfl (fun m hq => ?_) (fun _ _ hk => hk)
      dsimp only
      rw [hqueue]
      exact List.mem_append_left _ hq
    refine hhas.put hk fun l bytes hs => ?_
    dsimp only
    rw [hqueue, ← Option.some.inj (hm.symm.trans (message_of_sending hs))]
    exact List.mem_append_right _ (List.mem_singleton_self _)
  | sendErr hclosed hk hm =>
    rw [show σ.main.ended = false from hopen] at hclosed
    cases hclosed
  | @recv j r hs hr hadm =>
    have hqueue := Chan.recv_none hr hadm
    have hmsg : r.msg.Genuine su.cfg file := h.queue _ (hqueue ▸ List.mem_cons_self ..)
    rw [(handle_seeds _).2] at hown
    rcases (h.covered (by rw [hs]; rfl) i hown).pop (c := r.chan) hqueue (fun _ hx => hx) with
      ⟨l, bytes, heq⟩ | hhas
    · rw [heq] at hmsg ⊢
      exact has_received hfile h.length hmsg
    · exact hhas.handle hfile h.length hmsg
  | @recvAdmit j r k s m hs hr hadm hk hm =>
    obtain ⟨m', q, hmem, hqueue, hout, -⟩ := Chan.recv_admitted hr hadm
    have hmsg : r.msg.Genuine su.cfg file := h.queue _ (hqueue ▸ List.mem_cons_self ..)
    rw [(handle_seeds _).2] at hown
    rcases (h.covered (by rw [hs]; rfl) i hown).pop (c := r.chan) hqueue
      (fun x hx => hout ▸ List.mem_append_left _ hx) with ⟨l, bytes, heq⟩ | hhas
    · rw [heq] at hmsg ⊢
      exact has_received hfile h.length hmsg
    · refine Sys.Has.handle (hhas.put hk fun l bytes hs => ?_) hfile h.length hmsg
      -- the piece of the sender that was let in is queued now
      obtain ⟨k', s', hkk, hk', hm'⟩ := h.blocked _ _ hmem
      obtain rfl := Task.seed.inj hkk
      obtain rfl := Option.some.inj (hk.symm.trans hk')
      dsimp only
      rw [hout, ← Option.some.inj (hm'.symm.trans (message_of_sending hs))]
      exact List.mem_append_right _ (List.mem_singleton_self _)

/-! ### The run -/

/-- One step keeps what every downloader holds. -/
theorem seeds_step (h : σ.Kept su file) (hsmall : SmallPieces su.cfg) (hok : Unlost su σ a)
    (hdel : a.Delivers su.cfg file) (hstep : sysStep su σ a = some σ') :
    ∀ (k : Nat) s, σ'.seeds[k]? = some s → s.Alive → SeedKept su.cfg file s := by
  refine (change_of_step hstep).seeds.all h.seed (fun _ => seedKept_new _ _) ?_
    fun s _ hlive => absurd hlive (crash_not_alive s)
  intro k s s' b hk he ha hP hlive
  refine seedKept_step (hP he.alive) h.bitfield he hlive hsmall (fun j dl hs => ?_) ?_ (k := k)
  · obtain ⟨sends, rfl⟩ := he.start_of_phase hs
    obtain rfl := ha.resolve_left (nomatch ·)
    exact hok s hk j dl hs
  · rcases ha with hkind | rfl
    · cases b with
      | sendOk | sendErr => trivial
      | check | keepAlive | streamEnd | streamError | deliver | setPiece | release | request | pick
      | start => cases hkind
    · exact hdel

/-- The buffer keeps its length. -/
theorem length_step (h : σ.Kept su file) (hfile : Genuine su.cfg file)
    (hstep : sysStep su σ a = some σ') : σ'.bytes.length = su.cfg.torrent.length := by
  cases change_of_step hstep with
  | main | spawn | lock | finish | own | crash | sendBlocked | sendOk | sendErr => exact h.length
  | recv hs hr hadm =>
    refine (handle_eq hfile ?_ (h.queue _ ?_)).2.1
    · exact h.length
    · exact Chan.recv_none hr hadm ▸ List.mem_cons_self ..
  | recvAdmit hs hr hadm hk hm =>
    obtain ⟨m', q, -, hqueue, -⟩ := Chan.recv_admitted hr hadm
    refine (handle_eq hfile ?_ (h.queue _ ?_)).2.1
    · exact h.length
    · exact hqueue ▸ List.mem_cons_self ..

/-- What is returned is whole. -/
theorem returned_step (h : σ.Kept su file) (hfile : Genuine su.cfg file) (hok : Unlost su σ a)
    (hstep : sysStep su σ a = some σ') {bytes : List UInt8} (hs' : σ'.main = .returned bytes) :
    Whole su.cfg file bytes := by
  rcases (change_of_step hstep).returned hs' with hold | ⟨rfl, hs, hlock, rfl, hrem⟩
  · exact h.returned bytes hold
  · have hn := su.cfg.torrent.numPieces_lt
    have hall : ∀ i, i < su.cfg.torrent.numPieces → σ.bitfield.Owns i := by
      intro i hi
      by_contra hun
      have hmem : i ∈ σ.bitfield.missing := (Bitfield.mem_missing h.bitfield).mpr ⟨hi, hun⟩
      rw [h.bitfield.remaining_eq hn] at hrem
      rw [Finset.card_eq_zero.mp (Option.some.inj hrem)] at hmem
      cases hmem
    have hpiece : ∀ i, i < su.cfg.torrent.numPieces →
        su.cfg.piece σ.bytes i = su.cfg.piece file i := by
      intro i hi
      cases h.covered (by rw [hs]; rfl) i (hall i hi) with
      | buffer hbuf => exact hbuf
      | queued hq => exact (hok hrem _ hq).trans (h.queue _ hq).2.2
      | sending hk hph =>
        -- the loop holds the lock, so nobody is sending a piece
        have hhold := h.keeps _ _ hk (by rw [hph]; rfl)
        rw [hlock] at hhold
        cases hhold
    exact ⟨h.length, hpiece, fun i hi => by rw [hpiece i hi]; exact hfile.hash i hi⟩

/-- One step keeps it all, if it loses no piece and delivers genuine blocks. -/
theorem Sys.kept_step
    (h : σ.Kept su file) (hfile : Genuine su.cfg file) (hsmall : SmallPieces su.cfg)
    (hok : Unlost su σ a) (hdel : a.Delivers su.cfg file) (hstep : sysStep su σ a = some σ') :
    σ'.Kept su file where
  toInv := inv_step h.toInv hstep
  toWired := wired_step h.toWired hstep
  seed := seeds_step h hsmall hok hdel hstep
  queue := by
    intro m hm
    rcases (change_of_step hstep).queue h.toWired hm with hm | ⟨k, s, hk, hms⟩
    · exact h.queue m hm
    · exact h.message hk hms
  length := length_step h hfile hstep
  covered := covered_step h hfile hok hstep
  returned := fun _ => returned_step h hfile hok hstep

/-- **The download is complete.** In every run with genuine blocks whose steps
lose no piece, what `File::download` returns has the length of the torrent and
the genuine bytes of every piece. -/
theorem download_complete (su : Setup) (file : List UInt8) (acts : List Action)
    (hfile : Genuine su.cfg file) (hdel : ∀ a ∈ acts, a.Delivers su.cfg file)
    (hsmall : SmallPieces su.cfg)
    (hok : AllSteps (sysStep su) (Unlost su) (Sys.new su) acts) :
    AllStates (sysStep su) (fun σ => ∀ bytes, σ.main = .returned bytes → Whole su.cfg file bytes)
      (Sys.new su) acts :=
  (allStates_of_invariant (P := Sys.Kept su file)
    (fun _ _ _ h hok hs => Sys.kept_step h hfile hsmall hok.1 hok.2 hs) (Sys.kept_new su file)
    (hok.and (allSteps_of_forall hdel))).mono fun _ h => h.returned

/-- The second piece is owned and sent before the loop receives the first. -/
def overtaken : List Action :=
  [.pickSeeds, .peer true, .picked] ++ Action.join 0 ++ Action.fetch 0 0 1 ++
    Action.assemble 0 1 2 ++ [.send 0, .recv 0, .lock .main, .seed 0 .release, .finish]

/-- The loop receives each piece when it is sent. -/
def inStep : List Action :=
  [.pickSeeds, .peer true, .picked] ++ Action.join 0 ++ Action.fetch 0 0 1 ++
    [.recv 0, .lock .main, .finish] ++ Action.assemble 0 1 2 ++
    [.send 0, .recv 0, .lock .main, .seed 0 .release, .finish]

/-- Nothing remains when the loop has received the first of two pieces. -/
theorem queued_piece_lost :
    Genuine (twoPieces .dev) [1, 2] ∧ (∀ a ∈ overtaken, a.Delivers (twoPieces .dev) [1, 2]) ∧
    ¬ AllStates (sysStep (lone .dev))
      (fun σ => ∀ bytes, σ.main = .returned bytes → Whole (twoPieces .dev) [1, 2] bytes)
      (Sys.new (lone .dev)) overtaken := by
  refine ⟨⟨rfl, by decide⟩, by decide +kernel, fun h => ?_⟩
  have hne := h.mono (Q := fun σ => σ.main ≠ .returned [1, 0]) fun σ hσ heq =>
    absurd ((hσ [1, 0] heq).piece 1 (by decide)) (by decide)
  revert hne
  decide +kernel

theorem download_complete_two :
    AllStates (sysStep (lone .dev))
      (fun σ => ∀ bytes, σ.main = .returned bytes → Whole (twoPieces .dev) [1, 2] bytes)
      (Sys.new (lone .dev)) inStep :=
  download_complete (lone .dev) [1, 2] _ ⟨rfl, by decide⟩ (by decide +kernel) (by decide +kernel)
    (by decide +kernel)

end System

end BitTorrent
