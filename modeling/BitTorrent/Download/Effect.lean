import BitTorrent.Download.Seed

/-!
# What a step of a downloader can do

The two loops of `request_pieces` get a rule each (`requestBlocks_rule`,
`requestPending_rule`): what one round preserves, the loop preserves. `Effect`
is the inversion of `seedStep`, one constructor for each way a step can go, with
everything the code tested on the way; `Cause` says what makes a step panic.
`seedStep_bitfield` says which call on the shared bitfield the step makes.

The rules are induction on the loops, made once. `Outcome.Sat` takes three
conditions, one for each way a loop ends: done, with a failed send, with a panic.
Whoever uses a rule shows what one request does (`push`) and never unfolds a loop.

The steps that only move the task on, with the same pieces and blocks, are `Moves`.
Most invariants do not look at the phase, or at a few phases only, and settle all
of these steps at once. What is left are the steps that request, receive, complete
and start something.
-/

namespace BitTorrent

/-! ## The loops -/

/-- The outcome is described by what holds of the state it leaves. -/
def Outcome.Sat {α : Type} (Q F : α → Prop) (E : Panic → Prop) : Outcome α → Prop
  | .ok a => Q a
  | .sendFailed a => F a
  | .panicked e _ => E e

theorem Outcome.Sat.mono {α : Type} {Q Q' F F' : α → Prop} {E E' : Panic → Prop} {o : Outcome α}
    (h : o.Sat Q F E) (hQ : ∀ a, Q a → Q' a) (hF : ∀ a, F a → F' a) (hE : ∀ e, E e → E' e) :
    o.Sat Q' F' E' := by
  cases o with
  | ok a => exact hQ a h
  | sendFailed a => exact hF a h
  | panicked e a => exact hE e h

/-- A send fails when there are none left to succeed. -/
theorem Wire.sends_of_failed {w : Wire} {msg : Message} (h : w.send msg = none) :
    w.sends = some 0 := by
  unfold Wire.send at h
  split at h
  next => cases h
  next heq => exact heq
  next => cases h

theorem Wire.sends_ne_of_sent {w w' : Wire} {msg : Message} (h : w.send msg = some w') :
    w.sends ≠ some 0 := by
  intro h0
  unfold Wire.send at h
  rw [h0] at h
  cases h

theorem Wire.sends_of_sent {w w' : Wire} {msg : Message} (h : w.send msg = some w')
    (hs : w.sends = none) : w'.sends = none := by
  unfold Wire.send at h
  rw [hs] at h
  rw [← Option.some.inj h]

/-- The loop of `request_blocks`: `P` holds at its head, `Q` after each round
and when there is nothing left to request. -/
theorem requestBlocks_rule {p : Profile} {k : Nat} {P Q : Requests → Prop}
    (hpush : ∀ r inflight wire, P r → r.dl.requested < r.dl.pieceLength →
      r.dl.nextBlock k ∉ r.blocks → p.add 8 r.inflight 1 = some inflight →
      r.wire.send (r.dl.nextBlock k).message = some wire → Q (r.push k inflight wire))
    (hloop : ∀ r, Q r → r.inflight ≠ maxInflightPerPeer → P r)
    (hdone : ∀ r, P r → r.dl.pieceLength ≤ r.dl.requested → Q r) :
    ∀ r, P r → (requestBlocks p k r).Sat
      (fun r' => Q r' ∧ (r'.dl.pieceLength ≤ r'.dl.requested ∨ r'.inflight = maxInflightPerPeer))
      (fun r' => P r' ∧ r'.dl.requested < r'.dl.pieceLength ∧ r'.wire.sends = some 0)
      (fun e => ∃ r', P r' ∧ (r'.dl.requested < r'.dl.pieceLength ∧ r'.wire.sends ≠ some 0) ∧
        (e = .blockAlreadyRequested ∧ r'.dl.nextBlock k ∈ r'.blocks ∨
         e = .inflightOverflow ∧ p.add 8 r'.inflight 1 = none)) := by
  intro r
  fun_induction requestBlocks p k r with
  | case1 r hlt hsend => exact fun h => ⟨h, hlt, Wire.sends_of_failed hsend⟩
  | case2 r hlt wire hsend hmem =>
    exact fun h => ⟨r, h, ⟨hlt, Wire.sends_ne_of_sent hsend⟩, Or.inl ⟨rfl, hmem⟩⟩
  | case3 r hlt wire hsend hmem hadd =>
    exact fun h => ⟨r, h, ⟨hlt, Wire.sends_ne_of_sent hsend⟩, Or.inr ⟨rfl, hadd⟩⟩
  | case4 r hlt wire hsend hmem hadd =>
    exact fun h => ⟨hpush r _ wire h hlt hmem hadd hsend, Or.inr rfl⟩
  | case5 r hlt wire hsend hmem inflight hadd hne ih =>
    exact fun h => ih (hloop _ (hpush r inflight wire h hlt hmem hadd hsend) hne)
  | case6 r hge => exact fun h => ⟨hdone r h (Nat.le_of_not_lt hge), Or.inl (Nat.le_of_not_lt hge)⟩

/-- A call with nothing to request. -/
theorem requestBlocks_done (p : Profile) (k : Nat) {r : Requests}
    (h : ¬ r.dl.requested < r.dl.pieceLength) : requestBlocks p k r = .ok r := by
  unfold requestBlocks
  rw [dif_neg h]

/-- The loop of `request_pieces`: `I order` holds when the pieces of `order` are
still to be visited. -/
theorem requestPending_rule {p : Profile} {I : List Nat → SeedDownloader → Wire → Prop}
    {F : SeedDownloader → Wire → Prop} {E : Panic → Prop}
    (hskip : ∀ k order s w, I (k :: order) s w →
      (∀ dl, s.pendingPieces[k]? = some dl → dl.requested = dl.pieceLength) → I order s w)
    (hassert : ∀ k order s w dl, I (k :: order) s w → s.pendingPieces[k]? = some dl → p = .dev →
      (dl.pieceLength < dl.requested → E .requestedAbovePieceLength) ∧
      (dl.remainingBlocks = 0 → E .noRemainingBlocks))
    (hpiece : ∀ k order s w dl, I (k :: order) s w → s.pendingPieces[k]? = some dl →
      dl.requested ≠ dl.pieceLength →
      (requestBlocks p k ⟨dl, s.inflight, s.pendingBlocks, w⟩).Sat
        (fun r => I order (s.apply k r) r.wire) (fun r => F (s.apply k r) r.wire) E) :
    ∀ (order : List Nat) (s : SeedDownloader) (w : Wire), I order s w →
      (requestPending p order s w).Sat (fun sw => I [] sw.1 sw.2) (fun sw => F sw.1 sw.2) E := by
  intro order
  induction order with
  | nil => intro s w h; exact h
  | cons k order ih =>
    intro s w h
    unfold requestPending
    split
    next hnone => exact ih s w (hskip k order s w h fun dl hdl => by rw [hnone] at hdl; cases hdl)
    next dl hdl =>
      split
      next hc => exact (hassert k order s w dl h hdl hc.1).1 hc.2
      next =>
        split
        next hc => exact (hassert k order s w dl h hdl hc.1).2 hc.2
        next =>
          split
          next heq =>
            refine ih s w (hskip k order s w h fun dl' hdl' => ?_)
            rw [hdl] at hdl'
            rw [← Option.some.inj hdl']
            exact heq
          next hne =>
            have hp := hpiece k order s w dl h hdl hne
            cases hreq : requestBlocks p k ⟨dl, s.inflight, s.pendingBlocks, w⟩ with
            | ok r => rw [hreq] at hp; exact ih _ _ hp
            | sendFailed r => rw [hreq] at hp; exact hp
            | panicked e r => rw [hreq] at hp; exact hp

/-! ## Requests, seen from the task -/

namespace SeedDownloader

/-- The task after the request of the next block of its piece `k`. -/
def push (s : SeedDownloader) (k : Nat) (dl : PieceDownload) (inflight : Nat) : SeedDownloader :=
  { s with
    pendingPieces := s.pendingPieces.insert k (dl.advance k)
    pendingBlocks := insert (dl.nextBlock k) s.pendingBlocks
    inflight := inflight }

variable {s : SeedDownloader} {k : Nat}

theorem insert_getElem? (m : PendingPieces) (k : Nat) (dl : PieceDownload) (j : Nat) :
    (m.insert k dl)[j]? = if k = j then some dl else m[j]? := by
  rw [Std.ExtTreeMap.getElem?_insert]
  simp only [Std.LawfulEqCmp.compare_eq_iff_eq]

theorem erase_getElem? (m : PendingPieces) (k j : Nat) :
    (m.erase k)[j]? = if k = j then none else m[j]? := by
  rw [Std.ExtTreeMap.getElem?_erase]
  simp only [Std.LawfulEqCmp.compare_eq_iff_eq]

theorem insert_insert (m : PendingPieces) (k : Nat) (dl dl' : PieceDownload) :
    (m.insert k dl).insert k dl' = m.insert k dl' := by
  ext j : 1
  grind

theorem apply_push (s : SeedDownloader) (k : Nat) (r : Requests) (inflight : Nat) (wire : Wire) :
    s.apply k (r.push k inflight wire) = (s.apply k r).push k r.dl inflight := by
  unfold apply push Requests.push
  simp only [insert_insert]

/-- Before the first request the task is as it was. -/
theorem apply_self {dl : PieceDownload} (hdl : s.pendingPieces[k]? = some dl) (w : Wire) :
    s.apply k ⟨dl, s.inflight, s.pendingBlocks, w⟩ = s := by
  have hm : s.pendingPieces.insert k dl = s.pendingPieces := by
    ext j : 1
    grind
  unfold apply
  rw [hm]

theorem apply_getElem? (s : SeedDownloader) (k : Nat) (r : Requests) :
    (s.apply k r).pendingPieces[k]? = some r.dl := by
  unfold apply
  simp

/-- What every request of the piece `k` preserves, `request_blocks` preserves. -/
theorem apply_rule {p : Profile} {I : SeedDownloader → Prop}
    (hpush : ∀ s dl inflight, I s → s.pendingPieces[k]? = some dl →
      dl.requested < dl.pieceLength → dl.nextBlock k ∉ s.pendingBlocks →
      p.add 8 s.inflight 1 = some inflight → I (s.push k dl inflight))
    (r : Requests) (h : I (s.apply k r)) :
    (requestBlocks p k r).Sat
      (fun r' => I (s.apply k r') ∧
        (r'.dl.pieceLength ≤ r'.dl.requested ∨ r'.inflight = maxInflightPerPeer))
      (fun r' => I (s.apply k r') ∧ r'.wire.sends = some 0)
      (fun e => ∃ r', I (s.apply k r') ∧
        (r'.dl.requested < r'.dl.pieceLength ∧ r'.wire.sends ≠ some 0) ∧
        (e = .blockAlreadyRequested ∧ r'.dl.nextBlock k ∈ r'.blocks ∨
         e = .inflightOverflow ∧ p.add 8 r'.inflight 1 = none)) := by
  have hrule := requestBlocks_rule (p := p) (k := k) (P := fun r => I (s.apply k r))
    (Q := fun r => I (s.apply k r))
    (fun r inflight wire hr hlt hmem hadd _ => by
      rw [apply_push]
      exact hpush _ _ _ hr (apply_getElem? s k r) hlt hmem hadd)
    (fun r hr _ => hr) (fun r hr _ => hr) r h
  exact hrule.mono (fun _ hr => hr) (fun _ hr => ⟨hr.1, hr.2.2⟩) (fun _ hr => hr)

/-- What every request preserves, `request_pieces` preserves. -/
theorem requestPending_invariant {p : Profile} {I : SeedDownloader → Prop}
    (hpush : ∀ k s dl inflight, I s → s.pendingPieces[k]? = some dl →
      dl.requested < dl.pieceLength → dl.nextBlock k ∉ s.pendingBlocks →
      p.add 8 s.inflight 1 = some inflight → I (s.push k dl inflight))
    (order : List Nat) (s : SeedDownloader) (w : Wire) (h : I s) :
    (requestPending p order s w).Sat (fun sw => I sw.1) (fun sw => I sw.1) (fun _ => True) := by
  refine requestPending_rule (I := fun _ s' _ => I s') (F := fun s' _ => I s')
    (fun _ _ _ _ h _ => h) (fun _ _ _ _ _ _ _ _ => ⟨fun _ => trivial, fun _ => trivial⟩)
    (fun k _ s' w' dl h hdl _ => ?_) order s w h
  exact (apply_rule (hpush k) _ (by rw [apply_self hdl]; exact h)).mono
    (fun _ hr => hr.1) (fun _ hr => hr.1) (fun _ _ => trivial)

/-- A batch of requests changes only the pieces' progress, the blocks and the counter. -/
theorem requestPending_frame (p : Profile) (order : List Nat) (s : SeedDownloader) (w : Wire) :
    (requestPending p order s w).Sat
      (fun sw => sw.1.phase = s.phase ∧ sw.1.chokedUs = s.chokedUs)
      (fun sw => sw.1.phase = s.phase ∧ sw.1.chokedUs = s.chokedUs) (fun _ => True) := by
  refine requestPending_rule
    (I := fun _ s' _ => s'.phase = s.phase ∧ s'.chokedUs = s.chokedUs)
    (F := fun s' _ => s'.phase = s.phase ∧ s'.chokedUs = s.chokedUs)
    (fun _ _ _ _ h _ => h) (fun _ _ _ _ _ _ _ _ => ⟨fun _ => trivial, fun _ => trivial⟩)
    (fun k _ s' w' dl h _ _ => ?_) order s w ⟨rfl, rfl⟩
  cases requestBlocks p k ⟨dl, s'.inflight, s'.pendingBlocks, w'⟩ with
  | ok r => exact h
  | sendFailed r => exact h
  | panicked e r => exact trivial

end SeedDownloader

/-! ## Steps -/

/-- The step reads something that changes nothing: a timer, an error of the
stream, a message that is ignored. -/
def SeedDownloader.Ignores (s : SeedDownloader) : SeedAct → Prop
  | .keepAlive _ | .streamError => True
  | .deliver .unchoke => s.chokedUs = false
  | .deliver (.piece index begin block) => .received index begin block ∉ s.pendingBlocks
  | .deliver .keepAlive | .deliver (.have _) | .deliver .interested | .deliver .notInterested
  | .deliver (.bitfield _) => True
  | _ => False

/-- Why a step panics. -/
inductive Cause (cfg : Config) (b : Bitfield) (s : SeedDownloader) : SeedAct → Panic → Prop
  | remaining (hs : s.phase = .loopHead) (hb : b.remaining cfg.profile = none) :
      Cause cfg b s .check .remainingOverflow
  | choke (hs : s.phase = .select)
      (hreset : SeedDownloader.resetPieces cfg.profile s.pendingPieces = none) :
      Cause cfg b s (.deliver .choke) .numBlocksOverflow
  | remainingBlocks {index begin : UInt32} {block : List UInt8} {dl : PieceDownload}
      (hs : s.phase = .select) (hmem : .received index begin block ∈ s.pendingBlocks)
      (hdl : s.pendingPieces[index.toNat]? = some dl)
      (hsub : cfg.profile.sub 16 dl.remainingBlocks 1 = none) :
      Cause cfg b s (.deliver (.piece index begin block)) .remainingBlocksOverflow
  | inflight {index begin : UInt32} {block : List UInt8}
      (hs : s.phase = .select) (hmem : .received index begin block ∈ s.pendingBlocks)
      (hsub : cfg.profile.sub 8 s.inflight 1 = none) :
      Cause cfg b s (.deliver (.piece index begin block)) .inflightOverflow
  | splice {index begin : UInt32} {block : List UInt8} {dl : PieceDownload}
      (hs : s.phase = .select) (hframed : (Message.piece index begin block).Framed)
      (hmem : .received index begin block ∈ s.pendingBlocks)
      (hdl : s.pendingPieces[index.toNat]? = some dl)
      (hsplice : splice dl.bytes begin.toNat (begin.toNat + block.length) block = none) :
      Cause cfg b s (.deliver (.piece index begin block)) .spliceRange
  | notImplemented {msg : Message} (hs : s.phase = .select)
      (hmsg : (∃ i j k, msg = .request i j k) ∨ ∃ i j k, msg = .cancel i j k) :
      Cause cfg b s (.deliver msg) .notImplemented
  | set {index : Nat} (hs : s.phase = .complete index) (hb : (b.set index).2 = .panicked) :
      Cause cfg b s .setPiece .bitfieldIndex
  | notPending {index : Nat} (hs : s.phase = .complete index)
      (hdl : s.pendingPieces[index]? = none) : Cause cfg b s .setPiece .pieceNotPending
  | request {order : List Nat} {sends : Option Nat} {e : Panic} {sw : SeedDownloader × Wire}
      (hs : s.phase = .request) (hc : s.chokedUs = false)
      (horder : order.Perm s.pendingPieces.keys)
      (hreq : requestPending cfg.profile order s ⟨sends, []⟩ = .panicked e sw) :
      Cause cfg b s (.request order sends) e
  | pick (hs : s.phase = .pick) (hb : b.pickPiece.2 = .panicked) :
    Cause cfg b s .pick .bitfieldIndex
  | newPiece {index : Nat} {e : Panic} (hs : s.phase = .pick)
      (hb : b.pickPiece.2 = .returned (some index))
      (hnew : SeedDownloader.newPiece cfg index = .error e) : Cause cfg b s .pick e
  | start {index : Nat} {dl : PieceDownload} {sends : Option Nat} {e : Panic} {r : Requests}
      (hs : s.phase = .start index dl)
      (hreq : requestBlocks cfg.profile index ⟨dl, s.inflight, s.pendingBlocks, ⟨sends, []⟩⟩ =
        .panicked e r) : Cause cfg b s (.start sends) e
  | alreadyPending {index : Nat} {dl : PieceDownload} {sends : Option Nat}
      (hs : s.phase = .start index dl) (hdl : index ∈ s.pendingPieces) :
      Cause cfg b s (.start sends) .pieceAlreadyPending

/-- The steps that only move the task on, with the phase they lead to. -/
inductive Moves (cfg : Config) (b : Bitfield) (s : SeedDownloader) : SeedAct → Phase → Prop
  | finish (hs : s.phase = .loopHead) (hb : b.remaining cfg.profile = some 0) :
      Moves cfg b s .check .ended
  | listen {r : Nat} (hs : s.phase = .loopHead) (hb : b.remaining cfg.profile = some (r + 1)) :
      Moves cfg b s .check .select
  | ignore {a : SeedAct} (hs : s.phase = .select) (ha : s.Ignores a) : Moves cfg b s a .loopHead
  | streamEnd (hs : s.phase = .select) : Moves cfg b s .streamEnd .leaving
  | sendOk {index length : Nat} {bytes : List UInt8} (hs : s.phase = .sending index length bytes) :
      Moves cfg b s .sendOk .sent
  | sendErr {index length : Nat} {bytes : List UInt8} (hs : s.phase = .sending index length bytes) :
      Moves cfg b s .sendErr .loopHead
  | leave {a : SeedAct} (hs : s.phase = .leaving) (ha : a = .sendOk ∨ a = .sendErr) :
      Moves cfg b s a .ended
  | release (hs : s.phase = .sent) : Moves cfg b s .release .request
  | choked {order : List Nat} {sends : Option Nat} (hs : s.phase = .request)
      (hc : s.chokedUs = true) : Moves cfg b s (.request order sends) .loopHead
  | pickNone (hs : s.phase = .pick) (hb : b.pickPiece.2 = .returned none) :
      Moves cfg b s .pick .loopHead
  | pickPending {index : Nat} (hs : s.phase = .pick)
      (hb : b.pickPiece.2 = .returned (some index)) (hdl : index ∈ s.pendingPieces) :
      Moves cfg b s .pick .loopHead
  | pickNew {index : Nat} {dl : PieceDownload} (hs : s.phase = .pick)
      (hb : b.pickPiece.2 = .returned (some index)) (hdl : index ∉ s.pendingPieces)
      (hnew : SeedDownloader.newPiece cfg index = .ok dl) :
      Moves cfg b s .pick (.start index dl)

/-- What a step does to the task. -/
inductive Effect (cfg : Config) (b : Bitfield) (s : SeedDownloader) :
    SeedAct → SeedDownloader → Prop
  | move {a : SeedAct} {phase : Phase} (h : Moves cfg b s a phase) :
      Effect cfg b s a (s.goto phase)
  | choke {pieces : PendingPieces} (hs : s.phase = .select)
      (hreset : SeedDownloader.resetPieces cfg.profile s.pendingPieces = some pieces) :
      Effect cfg b s (.deliver .choke)
        { s with chokedUs := true, pendingPieces := pieces, pendingBlocks := ∅, phase := .loopHead }
  | unchoke (hs : s.phase = .select) (hc : s.chokedUs = true) :
      Effect cfg b s (.deliver .unchoke) { s with chokedUs := false, phase := .request }
  | orphan {index begin : UInt32} {block : List UInt8} (hs : s.phase = .select)
      (hmem : .received index begin block ∈ s.pendingBlocks)
      (hdl : s.pendingPieces[index.toNat]? = none) :
      Effect cfg b s (.deliver (.piece index begin block))
        { s with
          pendingBlocks := s.pendingBlocks.erase (.received index begin block)
          phase := .loopHead }
  | block {index begin : UInt32} {block : List UInt8} {dl : PieceDownload}
      {remainingBlocks inflight : Nat} {bytes : List UInt8} (hs : s.phase = .select)
      (hframed : (Message.piece index begin block).Framed)
      (hmem : .received index begin block ∈ s.pendingBlocks)
      (hdl : s.pendingPieces[index.toNat]? = some dl)
      (hrem : cfg.profile.sub 16 dl.remainingBlocks 1 = some remainingBlocks)
      (hinf : cfg.profile.sub 8 s.inflight 1 = some inflight)
      (hsplice : splice dl.bytes begin.toNat (begin.toNat + block.length) block = some bytes) :
      Effect cfg b s (.deliver (.piece index begin block))
        { s with
          pendingPieces := s.pendingPieces.insert index.toNat { dl with remainingBlocks, bytes }
          pendingBlocks := s.pendingBlocks.erase (.received index begin block)
          inflight := inflight
          phase := if remainingBlocks = 0 then .complete index.toNat else .request }
  | valid {index : Nat} {dl : PieceDownload} (hs : s.phase = .complete index)
      (hb : (b.set index).2 = .returned ()) (hdl : s.pendingPieces[index]? = some dl)
      (hvalid : validatePiece cfg.sha1 dl.bytes dl.pieceHash = true) :
      Effect cfg b s .setPiece
        { s with
          pendingPieces := s.pendingPieces.erase index
          phase := .sending index dl.pieceLength dl.bytes }
  | invalid {index : Nat} {dl : PieceDownload} (hs : s.phase = .complete index)
      (hb : (b.set index).2 = .returned ()) (hdl : s.pendingPieces[index]? = some dl)
      (hvalid : validatePiece cfg.sha1 dl.bytes dl.pieceHash = false) :
      Effect cfg b s .setPiece
        { s with pendingPieces := s.pendingPieces.erase index, phase := .loopHead }
  | request {order : List Nat} {sends : Option Nat} {s' : SeedDownloader} {w : Wire}
      (hs : s.phase = .request) (hc : s.chokedUs = false)
      (horder : order.Perm s.pendingPieces.keys)
      (hreq : requestPending cfg.profile order s ⟨sends, []⟩ = .ok (s', w)) :
      Effect cfg b s (.request order sends)
        (s'.goto (if s'.inflight < maxInflightPerPeer then .pick else .loopHead))
  | requestFailed {order : List Nat} {sends : Option Nat} {s' : SeedDownloader} {w : Wire}
      (hs : s.phase = .request) (hc : s.chokedUs = false)
      (horder : order.Perm s.pendingPieces.keys)
      (hreq : requestPending cfg.profile order s ⟨sends, []⟩ = .sendFailed (s', w)) :
      Effect cfg b s (.request order sends) (s'.goto .loopHead)
  | start {index : Nat} {dl : PieceDownload} {sends : Option Nat} {r : Requests}
      (hs : s.phase = .start index dl) (hdl : index ∉ s.pendingPieces)
      (hreq : requestBlocks cfg.profile index ⟨dl, s.inflight, s.pendingBlocks, ⟨sends, []⟩⟩ =
        .ok r) : Effect cfg b s (.start sends) ((s.apply index r).goto .loopHead)
  | startFailed {index : Nat} {dl : PieceDownload} {sends : Option Nat} {r : Requests}
      (hs : s.phase = .start index dl)
      (hreq : requestBlocks cfg.profile index ⟨dl, s.inflight, s.pendingBlocks, ⟨sends, []⟩⟩ =
        .sendFailed r) :
      Effect cfg b s (.start sends)
        { s with pendingBlocks := r.blocks, inflight := r.inflight, phase := .loopHead }
  | panic {a : SeedAct} {s' : SeedDownloader} {e : Panic} (hcause : Cause cfg b s a e)
      (hs' : s'.phase = .panicked e) : Effect cfg b s a s'

section Inversion

variable {cfg : Config} {b : Bitfield} {s : SeedDownloader}

/-- The head of the loop: go on, or end. -/
theorem effect_of_check (hs : s.phase = .loopHead) : Effect cfg b s .check (s.check cfg b) := by
  unfold SeedDownloader.check
  split
  next hb => exact .panic (.remaining hs hb) rfl
  next hb => exact .move (.finish hs hb)
  next r hne hb =>
    obtain ⟨r', rfl⟩ := Nat.exists_eq_succ_of_ne_zero hne
    exact .move (.listen hs hb)

/-- A `Piece` message, with all the ways in which its block can be refused. -/
theorem effect_of_piece (hs : s.phase = .select) {index begin : UInt32} {block : List UInt8}
    (hframed : (Message.piece index begin block).Framed) :
    Effect cfg b s (.deliver (.piece index begin block))
      (s.handleMsg cfg (.piece index begin block)).1 := by
  simp only [SeedDownloader.handleMsg]
  by_cases hmem : BlockDownload.received index begin block ∈ s.pendingBlocks
  · rw [if_pos hmem]
    cases hdl : s.pendingPieces[index.toNat]? with
    | none => exact .orphan hs hmem hdl
    | some dl =>
      dsimp only [SeedDownloader.receiveBlock]
      split
      next hrem => exact .panic (.remainingBlocks hs hmem hdl hrem) rfl
      next hrem =>
        split
        next hinf => exact .panic (.inflight hs hmem hinf) rfl
        next hinf =>
          split
          next hsplice => exact .panic (.splice hs hframed hmem hdl hsplice) rfl
          next hsplice => exact .block hs hframed hmem hdl hrem hinf hsplice
  · rw [if_neg hmem]
    exact .move (.ignore hs hmem)

/-- Any message, by its kind. -/
theorem effect_of_msg (hs : s.phase = .select) {msg : Message} (hframed : msg.Framed) :
    Effect cfg b s (.deliver msg) (s.handleMsg cfg msg).1 := by
  cases msg with
  | keepAlive | interested | notInterested => exact .move (.ignore hs trivial)
  | «have» i => exact .move (.ignore hs trivial)
  | bitfield bytes => exact .move (.ignore hs trivial)
  | choke =>
    simp only [SeedDownloader.handleMsg, SeedDownloader.handleChoke]
    split
    next hreset => exact .panic (.choke hs hreset) rfl
    next hreset => exact .choke hs hreset
  | unchoke =>
    simp only [SeedDownloader.handleMsg]
    split
    next hc => exact .unchoke hs hc
    next hc => exact .move (.ignore hs (Bool.eq_false_iff.mpr hc))
  | request i j k => exact .panic (.notImplemented hs (Or.inl ⟨i, j, k, rfl⟩)) rfl
  | cancel i j k => exact .panic (.notImplemented hs (Or.inr ⟨i, j, k, rfl⟩)) rfl
  | piece index begin block => exact effect_of_piece hs hframed

/-- The piece is set, validated and sent, or refused. -/
theorem effect_of_setPiece {index : Nat} {out : SeedOut} (hs : s.phase = .complete index)
    (h : s.setPiece cfg b index = some out) :
    Effect cfg b s .setPiece out.seed ∧ out.bitfield = (b.set index).1 := by
  unfold SeedDownloader.setPiece at h
  split at h
  next => cases h
  next heq =>
    obtain rfl := Option.some.inj h
    exact ⟨.panic (.set hs (by rw [heq])) rfl, by rw [heq]⟩
  next heq =>
    split at h
    next hdl =>
      obtain rfl := Option.some.inj h
      exact ⟨.panic (.notPending hs hdl) rfl, by rw [heq]⟩
    next dl hdl =>
      split at h
      next hvalid =>
        obtain rfl := Option.some.inj h
        exact ⟨.valid hs (by rw [heq]) hdl hvalid, by rw [heq]⟩
      next hvalid =>
        obtain rfl := Option.some.inj h
        exact ⟨.invalid hs (by rw [heq]) hdl (Bool.eq_false_iff.mpr hvalid), by rw [heq]⟩

/-- The requests for the pending pieces. -/
theorem effect_of_request (hs : s.phase = .request) {order : List Nat} {sends : Option Nat}
    (horder : order.Perm s.pendingPieces.keys) :
    Effect cfg b s (.request order sends) (s.requestPieces cfg b order sends).seed ∧
      (s.requestPieces cfg b order sends).bitfield = b := by
  unfold SeedDownloader.requestPieces
  split
  next hc => exact ⟨.move (.choked hs hc), rfl⟩
  next hc =>
    have hc : s.chokedUs = false := Bool.eq_false_iff.mpr hc
    split
    next hreq => exact ⟨.panic (.request hs hc horder hreq) rfl, rfl⟩
    next hreq => exact ⟨.requestFailed hs hc horder hreq, rfl⟩
    next hreq => exact ⟨.request hs hc horder hreq, rfl⟩

/-- The next piece is picked, or there is none. -/
theorem effect_of_pick {out : SeedOut} (hs : s.phase = .pick)
    (h : s.pickNext cfg b = some out) :
    Effect cfg b s .pick out.seed ∧ out.bitfield = b.pickPiece.1 := by
  unfold SeedDownloader.pickNext at h
  split at h
  next => cases h
  next heq =>
    obtain rfl := Option.some.inj h
    exact ⟨.panic (.pick hs (by rw [heq])) rfl, by rw [heq]⟩
  next heq =>
    obtain rfl := Option.some.inj h
    exact ⟨.move (.pickNone hs (by rw [heq])), by rw [heq]⟩
  next index heq =>
    split at h
    next hdl =>
      obtain rfl := Option.some.inj h
      exact ⟨.move (.pickPending hs (by rw [heq]) hdl), by rw [heq]⟩
    next hdl =>
      split at h
      next hnew =>
        obtain rfl := Option.some.inj h
        exact ⟨.panic (.newPiece hs (by rw [heq]) hnew) rfl, by rw [heq]⟩
      next hnew =>
        obtain rfl := Option.some.inj h
        exact ⟨.move (.pickNew hs (by rw [heq]) hdl hnew), by rw [heq]⟩

/-- The requests for the new piece. -/
theorem effect_of_start {index : Nat} {dl : PieceDownload} {sends : Option Nat}
    (hs : s.phase = .start index dl) :
    Effect cfg b s (.start sends) (s.startPiece cfg b index dl sends).seed ∧
      (s.startPiece cfg b index dl sends).bitfield = b := by
  unfold SeedDownloader.startPiece
  split
  next hreq => exact ⟨.panic (.start hs hreq) rfl, rfl⟩
  next hreq => exact ⟨.startFailed hs hreq, rfl⟩
  next hreq =>
    dsimp only
    split
    next hdl => exact ⟨.panic (.alreadyPending hs hdl) rfl, rfl⟩
    next hdl => exact ⟨.start hs hdl hreq, rfl⟩

/-- The call a step makes on the shared bitfield. -/
def SeedDownloader.bitOp (s : SeedDownloader) : SeedAct → Option BitOp
  | .setPiece => match s.phase with
    | .complete index => some (.set index)
    | _ => none
  | .pick => some .pick
  | _ => none

/-- The bitfield after the call, when there is one. -/
def Bitfield.after (b : Bitfield) : Option BitOp → Bitfield
  | none => b
  | some op => (b.call op).1

/-- **Inversion.** What a step does to the task and to the shared bitfield. -/
theorem effect_of_step {a : SeedAct} {out : SeedOut} (h : seedStep cfg b s a = some out) :
    Effect cfg b s a out.seed ∧ out.bitfield = b.after (s.bitOp a) := by
  cases a with
  | check =>
    simp only [seedStep] at h
    split at h
    next hs => obtain rfl := Option.some.inj h; exact ⟨effect_of_check hs, rfl⟩
    next => cases h
  | keepAlive sent =>
    simp only [seedStep] at h
    split at h
    next hs => obtain rfl := Option.some.inj h; exact ⟨.move (.ignore hs trivial), rfl⟩
    next => cases h
  | streamEnd =>
    simp only [seedStep] at h
    split at h
    next hs => obtain rfl := Option.some.inj h; exact ⟨.move (.streamEnd hs), rfl⟩
    next => cases h
  | streamError =>
    simp only [seedStep] at h
    split at h
    next hs => obtain rfl := Option.some.inj h; exact ⟨.move (.ignore hs trivial), rfl⟩
    next => cases h
  | deliver msg =>
    simp only [seedStep] at h
    split at h
    next hs =>
      split at h
      next hframed => obtain rfl := Option.some.inj h; exact ⟨effect_of_msg hs hframed, rfl⟩
      next => cases h
    next => cases h
  | setPiece =>
    simp only [seedStep] at h
    split at h
    next hs =>
      obtain ⟨he, hb⟩ := effect_of_setPiece hs h
      refine ⟨he, ?_⟩
      rw [hb, SeedDownloader.bitOp, hs]
      exact (Bitfield.call_set b _).symm
    next => cases h
  | sendOk =>
    simp only [seedStep] at h
    split at h
    next hs => obtain rfl := Option.some.inj h; exact ⟨.move (.sendOk hs), rfl⟩
    next hs => obtain rfl := Option.some.inj h; exact ⟨.move (.leave hs (Or.inl rfl)), rfl⟩
    next => cases h
  | sendErr =>
    simp only [seedStep] at h
    split at h
    next hs => obtain rfl := Option.some.inj h; exact ⟨.move (.sendErr hs), rfl⟩
    next hs => obtain rfl := Option.some.inj h; exact ⟨.move (.leave hs (Or.inr rfl)), rfl⟩
    next => cases h
  | release =>
    simp only [seedStep] at h
    split at h
    next hs => obtain rfl := Option.some.inj h; exact ⟨.move (.release hs), rfl⟩
    next => cases h
  | request order sends =>
    simp only [seedStep] at h
    split at h
    next hs =>
      split at h
      next horder => obtain rfl := Option.some.inj h; exact effect_of_request hs horder
      next => cases h
    next => cases h
  | pick =>
    simp only [seedStep] at h
    split at h
    next hs => exact effect_of_pick hs h
    next => cases h
  | start sends =>
    simp only [seedStep] at h
    split at h
    next hs => obtain rfl := Option.some.inj h; exact effect_of_start hs
    next => cases h

end Inversion

end BitTorrent
