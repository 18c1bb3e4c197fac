import BitTorrent.Bencode.MetaInfo
import BitTorrent.Download.Calls
import BitTorrent.Download.PeerMsg
import Mathlib.Data.Finset.Insert
import Std.Data.ExtTreeMap

/-!
# One downloader (`SeedDownloader` in `download/mod.rs`)

A `SeedDownloader` is a task: it reads the messages of one seed, keeps the
pieces and blocks it has requested, and takes the next piece from the shared
bitfield. `Phase` says where in its loop the task is; a step of the task
(`seedStep`) runs to the next point at which it can be interrupted: a lock, a
send on the channel, a message from the peer, a batch of requests.

What the code leaves open is part of the step's label (`SeedAct`): the message
that arrives, the order in which the hash map of pending pieces is visited, and
after how many messages the stream fails.

Mirroring notes:

* the local variable `inflight` of `download` is a field, and so is where the task
  is. The fields that do not change (the address, the `Arc`s, the sender) are in
  `Config`, or with the whole download in `System`;
* a batch of requests is one step, although each `stream.send` in it is awaited.
  Nobody else reads what the batch changes, so no other task can tell;
* the bitfield is an argument of `seedStep`. That the task holds the lock when it
  uses it is said where the tasks are put together;
* the assertions that a debug build makes (`debug_assert!`) are conditions on the
  `Profile`. What is printed is left out, an error that is only printed is a
  `HandleError`;
* the codec has decoded the message that is delivered, so it is `Framed`.

`Effect` is the inversion of `seedStep`: everything a step can do, once. The
invariants of the later files are proved by cases on it.
-/

namespace BitTorrent

/-- `BLOCK_SIZE`. -/
def blockSize : Nat := 2 ^ 14
/-- `MAX_INFLIGHT_PER_PEER`. -/
def maxInflightPerPeer : Nat := 5

/-- `x as u16`. -/
def asU16 (x : Nat) : Nat := x % 2 ^ 16

/-- `PieceDownload`. -/
structure PieceDownload where
  pieceHash : Digest
  pieceLength : Nat
  requested : Nat
  remainingBlocks : Nat
  bytes : List UInt8
  deriving DecidableEq, Repr

/-- `BlockDownload`. -/
structure BlockDownload where
  pieceIndex : Nat
  blockBegin : Nat
  blockLen : Nat
  deriving DecidableEq, Repr

/-- The block a `Piece` message carries. -/
def BlockDownload.received (index begin : UInt32) (block : List UInt8) : BlockDownload where
  pieceIndex := index.toNat
  blockBegin := begin.toNat
  blockLen := asU32 block.length

/-- What stops a task: the codec, overflow checks, assertions, indices, `unwrap`, `todo!`. -/
inductive Panic
  | decode
  | remainingOverflow
  | numBlocksOverflow
  | remainingBlocksOverflow
  | inflightOverflow
  | spliceRange
  | bitfieldIndex
  | pieceNotPending
  | requestedAbovePieceLength
  | noRemainingBlocks
  | blockAlreadyRequested
  | pieceAlreadyPending
  | pieceLength
  | pieceIndex
  | notImplemented
  deriving DecidableEq, Repr

/-- The errors of `handle_msg`, without the texts that are printed of them; `stream`
and `channel` are those of a failed send. -/
inductive HandleError
  | bitfieldOutOfOrder
  | unrequestedBlock
  | unrequestedPiece (index : Nat)
  | pieceValidationFailed
  | stream
  | channel
  deriving DecidableEq, Repr

/-- Where a task is in its loop. `loopHead`, `complete` and `pick` are about to
lock the bitfield; `sending` and `sent` hold the lock. -/
inductive Phase
  | loopHead
  | select
  | complete (index : Nat)
  | sending (index length : Nat) (bytes : List UInt8)
  | sent
  | request
  | pick
  | start (index : Nat) (dl : PieceDownload)
  | leaving
  | ended
  | panicked (e : Panic)
  deriving DecidableEq, Repr

/-- The `HashMap` of the pending pieces. The order in which it is visited is left to
the step. -/
abbrev PendingPieces := Std.ExtTreeMap Nat PieceDownload compare

/-- `inflight` is the local variable of `download`. -/
structure SeedDownloader where
  chokedUs : Bool
  pendingPieces : PendingPieces
  pendingBlocks : Finset BlockDownload
  inflight : Nat
  phase : Phase

/-- What the task is given: the torrent, and the hash function of `validate_piece`. -/
structure Config where
  profile : Profile
  torrent : Torrent profile
  sha1 : List UInt8 → Digest

/-- `validate_piece`. -/
def validatePiece (sha1 : List UInt8 → Digest) (piece : List UInt8) (hash : Digest) : Bool :=
  hash == sha1 piece

/-- The write half of the peer's stream: after how many messages a send fails
(`none`: never), and the messages sent. -/
structure Wire where
  sends : Option Nat
  sent : List Message

/-- `stream.send`. A message that cannot be sent is not seen by the peer. -/
def Wire.send (w : Wire) (msg : Message) : Option Wire :=
  match w.sends with
  | none => some ⟨none, w.sent ++ [msg]⟩
  | some 0 => none
  | some (k + 1) => some ⟨some k, w.sent ++ [msg]⟩

/-! ## Requests -/

/-- `(len + BLOCK_SIZE - 1) / BLOCK_SIZE` in `u32`. -/
def numBlocks (p : Profile) (len : Nat) : Option Nat := do
  let sum ← p.add 32 len blockSize
  let num ← p.sub 32 sum 1
  some (num / blockSize)

/-- The next block to request of a piece. -/
def PieceDownload.nextBlock (dl : PieceDownload) (pieceIndex : Nat) : BlockDownload where
  pieceIndex := pieceIndex
  blockBegin := dl.requested
  blockLen :=
    let blockLen := dl.pieceLength - dl.requested
    if blockLen > blockSize then blockSize else blockLen

/-- The piece after the request of its next block: `requested += block_len`,
which never overflows because `requested` stays at most `piece_length`. -/
def PieceDownload.advance (dl : PieceDownload) (pieceIndex : Nat) : PieceDownload :=
  { dl with requested := dl.requested + (dl.nextBlock pieceIndex).blockLen }

/-- The request message of a block. -/
def BlockDownload.message (b : BlockDownload) : Message :=
  .request (.ofNat b.pieceIndex) (.ofNat b.blockBegin) (.ofNat b.blockLen)

/-- What `request_blocks` changes. -/
structure Requests where
  dl : PieceDownload
  inflight : Nat
  blocks : Finset BlockDownload
  wire : Wire

/-- One round of the loop of `request_blocks`, once the request is sent. -/
def Requests.push (r : Requests) (pieceIndex inflight : Nat) (wire : Wire) : Requests where
  dl := r.dl.advance pieceIndex
  inflight := inflight
  blocks := insert (r.dl.nextBlock pieceIndex) r.blocks
  wire := wire

/-- How a batch of requests ends, with what was done before. -/
inductive Outcome (α : Type)
  | ok (a : α)
  | sendFailed (a : α)
  | panicked (e : Panic) (a : α)

theorem blockSize_pos : 0 < blockSize := Nat.two_pow_pos 14

theorem PieceDownload.nextBlock_pos {dl : PieceDownload} (h : dl.requested < dl.pieceLength)
    (k : Nat) : 0 < (dl.nextBlock k).blockLen := by
  have := blockSize_pos
  unfold nextBlock
  dsimp only
  split <;> omega

theorem PieceDownload.nextBlock_le (dl : PieceDownload) (k : Nat) :
    (dl.nextBlock k).blockLen ≤ dl.pieceLength - dl.requested := by
  unfold nextBlock
  dsimp only
  split <;> omega

/-- `request_blocks`. A block is sent, then looked up, then counted, as in the code:
what panics has been sent. -/
@[semireducible] def requestBlocks (p : Profile) (pieceIndex : Nat) (r : Requests) :
    Outcome Requests :=
  if _ : r.dl.requested < r.dl.pieceLength then
    match r.wire.send (r.dl.nextBlock pieceIndex).message with
    | none => .sendFailed r
    | some wire =>
      if r.dl.nextBlock pieceIndex ∈ r.blocks then .panicked .blockAlreadyRequested { r with wire }
      else
        match p.add 8 r.inflight 1 with
        | none => .panicked .inflightOverflow (r.push pieceIndex r.inflight wire)
        | some inflight =>
          if inflight = maxInflightPerPeer then .ok (r.push pieceIndex inflight wire)
          else requestBlocks p pieceIndex (r.push pieceIndex inflight wire)
  else .ok r
termination_by r.dl.pieceLength - r.dl.requested
decreasing_by
  have hpos := PieceDownload.nextBlock_pos ‹r.dl.requested < r.dl.pieceLength› pieceIndex
  show r.dl.pieceLength - (r.dl.requested + _) < _
  omega

/-- The requests of a piece, written back to the task. -/
def SeedDownloader.apply (s : SeedDownloader) (pieceIndex : Nat) (r : Requests) :
    SeedDownloader :=
  { s with
    pendingPieces := s.pendingPieces.insert pieceIndex r.dl
    pendingBlocks := r.blocks
    inflight := r.inflight }

/-- The loop of `request_pieces` over the pending pieces, visited in `order`. -/
def requestPending (p : Profile) :
    List Nat → SeedDownloader → Wire → Outcome (SeedDownloader × Wire)
  | [], s, w => .ok (s, w)
  | k :: order, s, w =>
    match s.pendingPieces[k]? with
    | none => requestPending p order s w
    | some dl =>
      if p = .dev ∧ dl.pieceLength < dl.requested then
        .panicked .requestedAbovePieceLength (s, w)
      else if p = .dev ∧ dl.remainingBlocks = 0 then .panicked .noRemainingBlocks (s, w)
      else if dl.requested = dl.pieceLength then requestPending p order s w
      else
        match requestBlocks p k ⟨dl, s.inflight, s.pendingBlocks, w⟩ with
        | .ok r => requestPending p order (s.apply k r) r.wire
        | .sendFailed r => .sendFailed (s.apply k r, r.wire)
        | .panicked e r => .panicked e (s.apply k r, r.wire)

/-! ## Steps of the task -/

/-- The state a step leaves, what it sent to the peer, and the error the loop prints. -/
structure SeedOut where
  bitfield : Bitfield
  seed : SeedDownloader
  sent : List Message := []
  error : Option HandleError := none

/-- The steps of a task. `check` is the head of the loop, `keepAlive` to `deliver`
are the branches of its `select!`, `setPiece` to `release` complete a piece, and
`request` to `start` are `request_pieces`. -/
inductive SeedAct
  | check
  | keepAlive (sent : Bool)
  | streamEnd
  | streamError
  | deliver (msg : Message)
  | setPiece
  | sendOk
  | sendErr
  | release
  | request (order : List Nat) (sends : Option Nat)
  | pick
  | start (sends : Option Nat)
  deriving DecidableEq, Repr

namespace SeedDownloader

/-- `SeedDownloader::new`. -/
def new : SeedDownloader where
  chokedUs := true
  pendingPieces := ∅
  pendingBlocks := ∅
  inflight := 0
  phase := .loopHead

/-- The task goes on elsewhere, and nothing else changes. -/
def goto (s : SeedDownloader) (phase : Phase) : SeedDownloader := { s with phase := phase }

/-- The top of the loop, with the bitfield locked. -/
def check (cfg : Config) (b : Bitfield) (s : SeedDownloader) : SeedDownloader :=
  match b.remaining cfg.profile with
  | none => s.goto (.panicked .remainingOverflow)
  | some 0 => s.goto .ended
  | some _ => s.goto .select

/-- The piece is downloaded from the beginning, into the buffer it has. -/
def resetPiece (p : Profile) (dl : PieceDownload) : Option PieceDownload :=
  (numBlocks p dl.pieceLength).map fun num =>
    { dl with requested := 0, remainingBlocks := asU16 num }

/-- All pending pieces are reset; `none` if the blocks of one cannot be counted. -/
def resetPieces (p : Profile) (pieces : PendingPieces) : Option PendingPieces :=
  if pieces.toList.all fun e => (resetPiece p e.2).isSome then
    some (pieces.filterMap fun _ dl => resetPiece p dl)
  else none

/-- The arm of `Message::Choke`. It leaves `inflight` alone. -/
def handleChoke (cfg : Config) (s : SeedDownloader) : SeedDownloader :=
  match resetPieces cfg.profile s.pendingPieces with
  | none => s.goto (.panicked .numBlocksOverflow)
  | some pieces =>
    { s with
      chokedUs := true
      pendingPieces := pieces
      pendingBlocks := ∅
      phase := .loopHead }

/-- A block that was requested, of a piece that is pending. -/
def receiveBlock (cfg : Config) (s : SeedDownloader) (index : Nat) (dl : PieceDownload)
    (begin : Nat) (block : List UInt8) : SeedDownloader :=
  match cfg.profile.sub 16 dl.remainingBlocks 1 with
  | none => s.goto (.panicked .remainingBlocksOverflow)
  | some remainingBlocks =>
    match cfg.profile.sub 8 s.inflight 1 with
    | none => s.goto (.panicked .inflightOverflow)
    | some inflight =>
      match splice dl.bytes begin (begin + block.length) block with
      | none => s.goto (.panicked .spliceRange)
      | some bytes =>
        { s with
          pendingPieces := s.pendingPieces.insert index { dl with remainingBlocks, bytes }
          inflight := inflight
          phase := if remainingBlocks = 0 then .complete index else .request }

/-- The task after the message, up to the completion of a piece or the next requests. -/
def handleMsg (cfg : Config) (s : SeedDownloader) :
    Message → SeedDownloader × Option HandleError
  | .keepAlive | .have _ | .interested | .notInterested => (s.goto .loopHead, none)
  | .choke => (s.handleChoke cfg, none)
  | .unchoke =>
    if s.chokedUs then ({ s with chokedUs := false, phase := .request }, none)
    else (s.goto .loopHead, none)
  | .bitfield _ => (s.goto .loopHead, some .bitfieldOutOfOrder)
  | .request .. | .cancel .. => (s.goto (.panicked .notImplemented), none)
  | .piece index begin block =>
    if BlockDownload.received index begin block ∈ s.pendingBlocks then
      let s :=
        { s with pendingBlocks := s.pendingBlocks.erase (.received index begin block) }
      match s.pendingPieces[index.toNat]? with
      | none => (s.goto .loopHead, some (.unrequestedPiece index.toNat))
      | some dl => (s.receiveBlock cfg index.toNat dl begin.toNat block, none)
    else (s.goto .loopHead, some .unrequestedBlock)

/-- The piece `index` has all its blocks; the bitfield is locked. -/
def setPiece (cfg : Config) (b : Bitfield) (s : SeedDownloader) (index : Nat) : Option SeedOut :=
  match b.set index with
  | (_, .spinning) => none
  | (b, .panicked) => some { bitfield := b, seed := s.goto (.panicked .bitfieldIndex) }
  | (b, .returned ()) =>
    match s.pendingPieces[index]? with
    | none => some { bitfield := b, seed := s.goto (.panicked .pieceNotPending) }
    | some dl =>
      let s := { s with pendingPieces := s.pendingPieces.erase index }
      if validatePiece cfg.sha1 dl.bytes dl.pieceHash then
        some { bitfield := b, seed := s.goto (.sending index dl.pieceLength dl.bytes) }
      else some { bitfield := b, seed := s.goto .loopHead, error := some .pieceValidationFailed }

/-- `request_pieces` up to the choice of the next piece. -/
def requestPieces (cfg : Config) (b : Bitfield) (s : SeedDownloader) (order : List Nat)
    (sends : Option Nat) : SeedOut :=
  if s.chokedUs then { bitfield := b, seed := s.goto .loopHead }
  else
    match requestPending cfg.profile order s ⟨sends, []⟩ with
    | .panicked e (s, w) => { bitfield := b, seed := s.goto (.panicked e), sent := w.sent }
    | .sendFailed (s, w) =>
      { bitfield := b, seed := s.goto .loopHead, sent := w.sent, error := some .stream }
    | .ok (s, w) =>
      { bitfield := b
        seed := s.goto (if s.inflight < maxInflightPerPeer then .pick else .loopHead)
        sent := w.sent }

/-- The download of a piece that was picked. -/
def newPiece (cfg : Config) (index : Nat) : Except Panic PieceDownload :=
  match cfg.torrent.info.getPieceLength cfg.profile index with
  | none => .error .pieceLength
  | some pieceLength =>
    match numBlocks cfg.profile pieceLength with
    | none => .error .numBlocksOverflow
    | some numBlocks =>
      match cfg.torrent.info.pieces[index]? with
      | none => .error .pieceIndex
      | some pieceHash => .ok
        { pieceHash := pieceHash
          pieceLength := pieceLength
          requested := 0
          remainingBlocks := asU16 numBlocks
          bytes := List.replicate pieceLength 0 }

/-- The choice of the next piece; the bitfield is locked. -/
def pickNext (cfg : Config) (b : Bitfield) (s : SeedDownloader) : Option SeedOut :=
  match b.pickPiece with
  | (_, .spinning) => none
  | (b, .panicked) => some { bitfield := b, seed := s.goto (.panicked .bitfieldIndex) }
  | (b, .returned none) => some { bitfield := b, seed := s.goto .loopHead }
  | (b, .returned (some index)) =>
    if index ∈ s.pendingPieces then some { bitfield := b, seed := s.goto .loopHead }
    else
      match newPiece cfg index with
      | .error e => some { bitfield := b, seed := s.goto (.panicked e) }
      | .ok dl => some { bitfield := b, seed := s.goto (.start index dl) }

/-- The first requests of a new piece. -/
def startPiece (cfg : Config) (b : Bitfield) (s : SeedDownloader) (index : Nat)
    (dl : PieceDownload) (sends : Option Nat) : SeedOut :=
  match requestBlocks cfg.profile index ⟨dl, s.inflight, s.pendingBlocks, ⟨sends, []⟩⟩ with
  | .panicked e r => { bitfield := b, seed := s.goto (.panicked e), sent := r.wire.sent }
  | .sendFailed r =>
    { bitfield := b
      seed := { s with pendingBlocks := r.blocks, inflight := r.inflight, phase := .loopHead }
      sent := r.wire.sent
      error := some .stream }
  | .ok r =>
    { bitfield := b
      seed :=
        if index ∈ s.pendingPieces then s.goto (.panicked .pieceAlreadyPending)
        else (s.apply index r).goto .loopHead
      sent := r.wire.sent }

end SeedDownloader

open SeedDownloader in
/-- A step of the task, over the bitfield that it finds. -/
def seedStep (cfg : Config) (b : Bitfield) (s : SeedDownloader) : SeedAct → Option SeedOut
  -- the loop head: `remaining() == 0` ends the loop
  | .check =>
    match s.phase with
    | .loopHead => some { bitfield := b, seed := s.check cfg b }
    | _ => none
  -- the `select!`: the timer, the end of the stream, an error, a message
  | .keepAlive sent =>
    match s.phase with
    | .select => some
      { bitfield := b, seed := s.goto .loopHead, sent := if sent then [.keepAlive] else [] }
    | _ => none
  | .streamEnd =>
    match s.phase with
    | .select => some { bitfield := b, seed := s.goto .leaving }
    | _ => none
  | .streamError =>
    match s.phase with
    | .select => some { bitfield := b, seed := s.goto .loopHead }
    | _ => none
  | .deliver msg =>
    match s.phase with
    | .select =>
      if msg.Framed then some
        { bitfield := b, seed := (s.handleMsg cfg msg).1, error := (s.handleMsg cfg msg).2 }
      else none
    | _ => none
  -- `handle_msg` goes on after the last block of a piece
  | .setPiece =>
    match s.phase with
    | .complete index => s.setPiece cfg b index
    | _ => none
  | .sendOk =>
    match s.phase with
    | .sending .. => some { bitfield := b, seed := s.goto .sent }
    | .leaving => some { bitfield := b, seed := s.goto .ended }
    | _ => none
  | .sendErr =>
    match s.phase with
    | .sending .. => some { bitfield := b, seed := s.goto .loopHead, error := some .channel }
    | .leaving => some { bitfield := b, seed := s.goto .ended }
    | _ => none
  | .release =>
    match s.phase with
    | .sent => some { bitfield := b, seed := s.goto .request }
    | _ => none
  -- `request_pieces`, in the order in which the map is iterated
  | .request order sends =>
    match s.phase with
    | .request =>
      if order.Perm s.pendingPieces.keys then some (s.requestPieces cfg b order sends) else none
    | _ => none
  | .pick =>
    match s.phase with
    | .pick => s.pickNext cfg b
    | _ => none
  | .start sends =>
    match s.phase with
    | .start index dl => some (s.startPiece cfg b index dl sends)
    | _ => none

end BitTorrent
