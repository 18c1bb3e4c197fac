import BitTorrent.Lib.Run
import BitTorrent.Lib.Sync
import BitTorrent.Download.Solo

/-!
# The whole download (`File::download` in `download/mod.rs`)

`Sys` is the receive loop of `File::download` (the task `main`) and the
downloaders it spawned, over what they share: the bitfield behind its mutex and
the channel of downloaded pieces. A step is one `Action` of one task. The
scheduler chooses which, so a run is any interleaving.

A downloader takes the steps of `seedStep`. Those that read or write the
bitfield are taken by the holder of the lock, and the lock is released at once
unless the task goes on to send the piece (`Phase.keepsLock`). Sends go through
the channel: the task goes on when its message is enqueued.

What a task does between two awaits is one step, and so is an await with what it
returns. The peers choose: whether one is a seed, what arrives on a stream, and
which send to a stream fails.

* `check_is_seed` is `peer`, whatever made it say yes or no: the connection, the
  handshake, the first message or the five seconds it is given. It runs in the
  task of `File::download`, so when it panics (in `decode` or `is_seed`, or in
  the `unwrap` of `SeedDownloader::new` right after it) that task panics
  (`peerPanic`).
* `decode` can panic on what a peer sends to a downloader, too (`readPanic`). The
  other panics of a downloader are steps of `seedStep`.
* A send to a peer that stops reading may never return. Such a task takes no
  step, so every run is still a run. The steps that wait for a peer are those
  with `Action.onStream`.

Left out: the panics of `println!`, of the allocator and of the runtime, and that
the runtime drops the downloaders when `main` ends.

`Change` is the inversion of `sysStep`. `Sys.Inv` is what every task knows in
every run, `Sys.Wired` is how the tasks, the lock and the channel hang together.
-/

namespace BitTorrent

/-- The task of `File::download`, and those that it spawns. -/
inductive Task
  | main
  | seed (k : Nat)
  deriving DecidableEq, Repr

/-- `Disconnect` carries the address of a peer: here the number of its task. -/
inductive DownloaderMsg
  | disconnect (addr : Nat)
  | piece (index length : Nat) (bytes : List UInt8)
  deriving DecidableEq, Repr

/-- Where `File::download` is: `picking` is `pick_seeds` with the peers left to
try, `receiving` is at `recv`, `received` is about to lock the bitfield or holds
it. -/
inductive MainPhase
  | starting
  | picking (peers : Nat)
  | receiving
  | received
  | returned (bytes : List UInt8)
  | failed
  | panicked
  deriving DecidableEq, Repr

/-- `MAX_SEEDS`. -/
def maxSeeds : Nat := 5
/-- The bound of `kanal::bounded_async`. -/
def channelCapacity : Nat := 5

/-- What the download is given. The code's `limit` is `maxSeeds`; no result
depends on it. -/
structure Setup where
  cfg : Config
  id : List UInt8
  peers : Nat
  limit : Nat

/-- The state of the download: the bitfield, its mutex, the channel, the
downloaders, and where `File::download` is with its buffer. -/
structure Sys where
  bitfield : Bitfield
  lock : FifoMutex Task
  chan : Chan Task DownloaderMsg channelCapacity
  seeds : List SeedDownloader
  main : MainPhase
  bytes : List UInt8

/-- `peer isSeed`: the next peer is tried, and is a seed or not; with `peerPanic`
the try panics. `recv j` receives, and lets the `j`-th blocked sender in. `seed k
a` is a step of the downloader `k` by itself, `readPanic k` its codec's panic,
`send k` and `sendErr k` are its sends. -/
inductive Action
  | pickSeeds
  | peer (isSeed : Bool)
  | peerPanic
  | picked
  | recv (j : Nat)
  | recvClosed
  | lock (t : Task)
  | finish
  | seed (k : Nat) (a : SeedAct)
  | readPanic (k : Nat)
  | send (k : Nat)
  | sendErr (k : Nat)
  deriving DecidableEq, Repr

/-- The task that takes the step. -/
def Action.task : Action → Task
  | .pickSeeds | .peer _ | .peerPanic | .picked | .recv _ | .recvClosed | .finish => .main
  | .lock t => t
  | .seed k _ | .readPanic k | .send k | .sendErr k => .seed k

/-- The step waits for a peer: it reads from its stream, or writes to it. The
tries of `check_is_seed` are given five seconds. -/
def SeedAct.onStream : SeedAct → Bool
  | .keepAlive _ | .streamEnd | .streamError | .deliver _ | .request .. | .start _ => true
  | .check | .setPiece | .sendOk | .sendErr | .release | .pick => false

/-- The step waits for a peer. -/
def Action.onStream : Action → Bool
  | .seed _ a => a.onStream
  | .readPanic _ => true
  | .pickSeeds | .peer _ | .peerPanic | .picked | .recv _ | .recvClosed | .lock _ | .finish
  | .send _ | .sendErr _ => false

/-- The next thing the task does is to read from its peer's stream, or to write
to it. -/
def Phase.onStream : Phase → Bool
  | .select | .request | .start .. => true
  | .loopHead | .complete _ | .sending .. | .sent | .pick | .leaving | .ended | .panicked _ => false

/-- The receiver is gone. -/
def MainPhase.ended : MainPhase → Bool
  | .returned _ | .failed | .panicked => true
  | .starting | .picking _ | .receiving | .received => false

/-- The next thing the task does is to lock the bitfield. -/
def Phase.wantsLock : Phase → Bool
  | .loopHead | .complete _ | .pick => true
  | _ => false

/-- The task goes on with the lock held. -/
def Phase.keepsLock : Phase → Bool
  | .sending .. | .sent => true
  | _ => false

/-- The task is over, and its sender is dropped. -/
def Phase.gone : Phase → Bool
  | .ended | .panicked _ => true
  | _ => false

/-- The task is over: `decode` panicked. -/
def SeedDownloader.crash (s : SeedDownloader) : SeedDownloader := s.goto (.panicked .decode)

/-- What the task `k` is sending to the receive loop. -/
def SeedDownloader.message (k : Nat) (s : SeedDownloader) : Option DownloaderMsg :=
  match s.phase with
  | .sending index length bytes => some (.piece index length bytes)
  | .leaving => some (.disconnect k)
  | _ => none

/-- The steps that need the lock, and those the channel decides about. -/
inductive SeedAct.Kind
  | locked
  | channel
  | free
  deriving DecidableEq

/-- The head of the loop, `set` and `pick_piece` need the lock, and the sends of
messages the channel. -/
def SeedAct.kind : SeedAct → Kind
  | .check | .setPiece | .pick => .locked
  | .sendOk | .sendErr => .channel
  | .keepAlive _ | .streamEnd | .streamError | .deliver _ | .release | .request .. | .start _ =>
    .free

namespace Sys

/-- The start of `File::download`: nothing is owned, and the buffer is all zeros. -/
def new (su : Setup) : Sys where
  bitfield := .zero su.cfg.torrent.numPieces
  lock := ⟨[]⟩
  chan := .empty
  seeds := []
  main := .starting
  bytes := List.replicate su.cfg.torrent.length 0

/-- The next thing the task does is to lock the bitfield. -/
def wantsLock (σ : Sys) : Task → Bool
  | .main => σ.main = .received
  | .seed k => (σ.seeds[k]?).any fun s => s.phase.wantsLock

/-- The piece the task `k` has all the blocks of. -/
def completing (σ : Sys) (k : Nat) : Option (Nat × PieceDownload) :=
  (σ.seeds[k]?).bind SeedDownloader.completing

/-- The task waits in `send` because the queue is full. -/
def Blocked (σ : Sys) (t : Task) : Prop := t ∈ σ.chan.blocked.map Prod.fst

instance (σ : Sys) (t : Task) : Decidable (σ.Blocked t) := inferInstanceAs (Decidable (_ ∈ _))

/-- The task `k` is now `s`, and has released the lock unless it goes on with it. -/
def put (σ : Sys) (k : Nat) (bitfield : Bitfield) (s : SeedDownloader) : Sys :=
  { σ with
    bitfield := bitfield
    seeds := σ.seeds.set k s
    lock :=
      if σ.lock.holder = some (.seed k) ∧ s.phase.keepsLock = false then σ.lock.release
      else σ.lock }

/-- The task `k` takes the step `a`. -/
def moveSeed (su : Setup) (σ : Sys) (k : Nat) (a : SeedAct) : Option Sys := do
  let s ← σ.seeds[k]?
  let out ← seedStep su.cfg σ.bitfield s a
  some (σ.put k out.bitfield out.seed)

/-- The receive loop with a message. The product of two `u32`s fits in a `usize`,
and so does its sum with a third. -/
def handle (su : Setup) (σ : Sys) : DownloaderMsg → Sys
  | .piece index length bytes =>
    let beginIdx := index * su.cfg.torrent.info.pieceLength
    match splice σ.bytes beginIdx (beginIdx + length) bytes with
    | none => { σ with main := .panicked }
    | some bytes => { σ with bytes := bytes, main := .received }
  | .disconnect _ => { σ with main := .received }

/-- `recv`. When a blocked sender is let in, its send returns at once. -/
def receive (su : Setup) (σ : Sys) (j : Nat) : Option Sys := do
  let r ← σ.chan.recv j
  let σ := { σ with chan := r.chan }
  match r.admitted with
  | some (.seed k) => (σ.moveSeed su k .sendOk).map fun σ => σ.handle su r.msg
  | some .main => none
  | none => some (σ.handle su r.msg)

/-- `send`: it returns, or blocks when the queue is full. -/
def send (su : Setup) (σ : Sys) (k : Nat) : Option Sys := do
  let s ← σ.seeds[k]?
  let m ← s.message k
  if σ.Blocked (.seed k) then none
  else if σ.chan.Full then some { σ with chan := σ.chan.send (.seed k) m }
  else moveSeed su { σ with chan := σ.chan.send (.seed k) m } k .sendOk

/-- The receive loop with the bitfield locked. -/
def check (su : Setup) (σ : Sys) : MainPhase :=
  match σ.bitfield.remaining su.cfg.profile with
  | none => .panicked
  | some 0 => .returned σ.bytes
  | some _ => .receiving

end Sys

/-- A step of the download. `none` is a step that the task cannot take now. -/
def sysStep (su : Setup) (σ : Sys) : Action → Option Sys
  | .pickSeeds =>
    match σ.main with
    | .starting => some
      { σ with main := if su.id.length = 20 then .picking su.peers else .failed }
    | _ => none
  -- `check_is_seed` of the next peer; the loop ends at `MAX_SEEDS`
  | .peer isSeed =>
    match σ.main with
    | .picking (peers + 1) =>
      if isSeed then some
        { σ with
          seeds := σ.seeds ++ [.new]
          main := if σ.seeds.length + 1 = su.limit then .receiving else .picking peers }
      else some { σ with main := .picking peers }
    | _ => none
  | .peerPanic =>
    match σ.main with
    | .picking (_ + 1) => some { σ with main := .panicked }
    | _ => none
  | .picked =>
    match σ.main with
    | .picking 0 => some { σ with main := .receiving }
    | _ => none
  | .recv j =>
    match σ.main with
    | .receiving => σ.receive su j
    | _ => none
  -- all senders are dropped and nothing is queued
  | .recvClosed =>
    match σ.main with
    | .receiving =>
      if σ.chan.queue = [] ∧ σ.seeds.all fun s => s.phase.gone then some { σ with main := .failed }
      else none
    | _ => none
  | .lock t =>
    if t ∉ σ.lock.queue ∧ σ.wantsLock t then some { σ with lock := σ.lock.acquire t } else none
  -- the mutex is held over the test of `remaining()` only
  | .finish =>
    match σ.main with
    | .received =>
      if σ.lock.holder = some .main then some
        { σ with lock := σ.lock.release, main := σ.check su }
      else none
    | _ => none
  | .seed k a =>
    match a.kind with
    | .locked => if σ.lock.holder = some (.seed k) then σ.moveSeed su k a else none
    | .free => σ.moveSeed su k a
    | .channel => none
  -- `stream.next()` of the downloader `k`
  | .readPanic k =>
    match σ.seeds[k]? with
    | some s => if s.phase = .select then some (σ.put k σ.bitfield s.crash) else none
    | none => none
  -- when the main task is over, the receiver is dropped
  | .send k => if σ.main.ended then none else σ.send su k
  | .sendErr k =>
    if σ.main.ended then
      Sys.moveSeed su { σ with chan := σ.chan.cancel (.seed k) } k .sendErr
    else none

/-! ## A small download -/

/-- A download of two pieces with one peer. -/
def lone (p : Profile) : Setup where
  cfg := twoPieces p
  id := List.replicate 20 0
  peers := 1
  limit := maxSeeds

/-- The task `k` picks its next piece and listens. -/
def Action.next (k : Nat) : List Action :=
  [.seed k (.request [] none), .lock (.seed k), .seed k .pick, .seed k (.start none),
    .lock (.seed k), .seed k .check]

/-- The only block of the piece `i` arrives, and the piece is set. -/
def Action.assemble (k : Nat) (i : UInt32) (byte : UInt8) : List Action :=
  [.seed k (.deliver (.piece i 0 [byte])), .lock (.seed k), .seed k .setPiece]

/-- The piece goes to the receive loop, and the task picks the next one. -/
def Action.fetch (k : Nat) (i : UInt32) (byte : UInt8) : List Action :=
  assemble k i byte ++ [.send k, .seed k .release] ++ next k

/-- The task `k` is unchoked and picks its first piece. -/
def Action.join (k : Nat) : List Action :=
  [.lock (.seed k), .seed k .check, .seed k (.deliver .unchoke)] ++ next k

end BitTorrent
