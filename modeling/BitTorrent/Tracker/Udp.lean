import BitTorrent.Bencode.MetaInfo
import BitTorrent.Lib.BytesMut
import BitTorrent.Lib.Utf8

/-!
# The UDP tracker's requests and replies (`tracker/udp.rs`)

Every method of `UdpTracker` is cut where it waits for the socket: `askConnId`
and `askAnnounce` are what `get_conn_id` and `send_announce` do up to their
`recv_buf`, `connIdReply` and `announceReply` what they do with the datagram.
A method that fails leaves the fields as they are then (`TrackerM`).

All requests and replies go through one buffer. `announceReply` reads as many
peers as arrived (`length_of_announceReply`), so it returns those of a response
exactly when the response fits into the room that the buffer has left
(`announceReply_response_iff`).

Mirroring notes:

* an `Instant` is a number of nanoseconds, and `Instant::now()` an argument. The sum
  with the interval does not overflow, as 32 bits of seconds fit into an `Instant`;
* the transaction id and the key are random, and arguments, too, and so is by how
  much the buffer grows when a request does not fit;
* a datagram is sent in full or not at all. `ensure!(98 == n)` is kept all the same;
* the errors are told apart as far as the code tells them apart. The texts that are
  only printed are not made;
* of the socket only the port of its peer is a field, which the announce sends.
-/

namespace BitTorrent

namespace Udp

/-- `PROTOCOL_ID`. -/
def protocolId : UInt64 := 0x41727101980
/-- `ACTION_CONNECT`. -/
def actionConnect : UInt32 := 0
/-- `ACTION_ANNOUNCE`. -/
def actionAnnounce : UInt32 := 1
/-- `ACTION_ERROR`. -/
def actionError : UInt32 := 3

/-- An `Instant` and a `Duration` are numbers of nanoseconds. -/
def secs (n : Nat) : Nat := n * 10 ^ 9

/-- The address of a peer, IPv4. -/
structure SocketAddr where
  ip : UInt32
  port : UInt16
  deriving DecidableEq, Repr

/-- `peerPort` is the port of the tracker, which the socket is connected to. -/
structure UdpTracker where
  peerPort : UInt16
  buf : BytesMut
  key : UInt32
  connId : UInt64
  connIdTs : Nat
  nextAnnounce : Nat
  deriving DecidableEq, Repr

/-- The tracker with another buffer. -/
def UdpTracker.onBuf (f : BytesMut → BytesMut) (t : UdpTracker) : UdpTracker :=
  { t with buf := f t.buf }

@[simp] theorem UdpTracker.onBuf_buf (f : BytesMut → BytesMut) (t : UdpTracker) :
    (t.onBuf f).buf = f t.buf := rfl

/-- The errors, told apart where the code tells them apart. `ensure` is a condition
that does not hold, `io` a send that fails. -/
inductive TrackerError
  | io
  | ensure
  | tooEarly
  | noConnId
  | tracker (msg : String)
  | action (expected received : UInt32)
  | notDivisible
  deriving DecidableEq, Repr

/-- An error that is returned, or a panic. -/
inductive Failure
  | error (e : TrackerError)
  | panicked
  deriving DecidableEq, Repr

/-- A method of the tracker. -/
def TrackerM (α : Type) : Type := UdpTracker → Except Failure α × UdpTracker

namespace TrackerM

instance : Monad TrackerM where
  pure a := fun t => (.ok a, t)
  bind m f := fun t =>
    match m t with
    | (.ok a, t) => f a t
    | (.error e, t) => (.error e, t)

section Bind

variable {α β : Type} {m : TrackerM α} {f : α → TrackerM β} {t t' : UdpTracker} {a : α} {b : β}

theorem bind_of_ok (h : m t = (.ok a, t')) : (m >>= f) t = f a t' := by
  show (match m t with
    | (.ok a, t) => f a t
    | (.error e, t) => (.error e, t)) = _
  rw [h]

theorem bind_of_error {e : Failure} (h : m t = (.error e, t')) : (m >>= f) t = (.error e, t') := by
  show (match m t with
    | (.ok a, t) => f a t
    | (.error e, t) => (.error e, t)) = _
  rw [h]

/-- A method that returns has returned from both of its parts. -/
theorem bind_eq_ok (h : (m >>= f) t = (.ok b, t')) :
    ∃ a t₁, m t = (.ok a, t₁) ∧ f a t₁ = (.ok b, t') := by
  change (match m t with
    | (.ok a, t) => f a t
    | (.error e, t) => (.error e, t)) = _ at h
  split at h
  next a t₁ heq => exact ⟨a, t₁, heq, h⟩
  next => cases (Prod.mk.inj h).1

end Bind

/-- A look at the fields. -/
def field {α : Type} (g : UdpTracker → α) : TrackerM α := fun t => (.ok (g t), t)

/-- A change of the fields. -/
def modify (f : UdpTracker → UdpTracker) : TrackerM Unit := fun t => (.ok (), f t)

/-- The end of a method. -/
def fail {α : Type} (e : Failure) : TrackerM α := fun t => (.error e, t)

/-- `anyhow::ensure!` -/
def ensure (c : Prop) [Decidable c] (e : TrackerError) : TrackerM Unit := fun t =>
  (if c then .ok () else .error (.error e), t)

/-- `self.buf.remaining()`. -/
def remaining : TrackerM Nat := field fun t => t.buf.remaining

/-- A read of the buffer, which panics past its end. -/
def read {α : Type} (get : BytesMut → Option (α × BytesMut)) : TrackerM α := fun t =>
  match get t.buf with
  | none => (.error .panicked, t)
  | some (a, buf) => (.ok a, { t with buf })

/-- `self.buf.put_…`. The buffer may grow by `grow` when it is full. -/
def put (grow : Nat) (src : List UInt8) : TrackerM Unit :=
  modify (UdpTracker.onBuf fun buf => buf.put grow src)

/-- `self.buf.clear()`. -/
def clear : TrackerM Unit := modify (UdpTracker.onBuf BytesMut.clear)

/-- `recv_buf`: of the datagram, the buffer takes what it has room for. -/
def recv (datagram : List UInt8) : TrackerM Unit :=
  modify (UdpTracker.onBuf fun buf => buf.recv datagram)

/-- A datagram is sent in full or not at all. -/
def send (sent : Bool) : TrackerM Nat := fun t =>
  (if sent then .ok t.buf.remaining else .error (.error .io), t)

section Facts

variable {α β : Type} {t t' : UdpTracker} {tail : List UInt8}

theorem clear_bind (f : Unit → TrackerM β) (t : UdpTracker) :
    (clear >>= f) t = f () (t.onBuf BytesMut.clear) := rfl

theorem put_bind (grow : Nat) (src : List UInt8) (f : Unit → TrackerM β) (t : UdpTracker) :
    (put grow src >>= f) t = f () (t.onBuf fun buf => buf.put grow src) := rfl

theorem field_bind (g : UdpTracker → α) (f : α → TrackerM β) (t : UdpTracker) :
    (field g >>= f) t = f (g t) t := rfl

theorem send_bind (f : Nat → TrackerM β) (t : UdpTracker) :
    (send true >>= f) t = f t.buf.remaining t := rfl

theorem unsent_bind (f : Nat → TrackerM β) (t : UdpTracker) :
    (send false >>= f) t = (.error (.error .io), t) := rfl

theorem remaining_eq (t : UdpTracker) : remaining t = (.ok t.buf.remaining, t) := rfl

theorem remaining_eq_ok {n : Nat} (h : remaining t = (.ok n, t')) :
    t.buf.remaining = n ∧ t = t' := by
  obtain ⟨hn, rfl⟩ := Prod.mk.inj h
  exact ⟨Except.ok.inj hn, rfl⟩

theorem ensure_of {c : Prop} [Decidable c] {e : TrackerError} (hc : c) (t : UdpTracker) :
    ensure c e t = (.ok (), t) := by
  show (if c then _ else _, t) = _
  rw [if_pos hc]

theorem ensure_of_not {c : Prop} [Decidable c] {e : TrackerError} (hc : ¬ c) (t : UdpTracker) :
    ensure c e t = (.error (.error e), t) := by
  show (if c then _ else _, t) = _
  rw [if_neg hc]

theorem ensure_eq_ok {c : Prop} [Decidable c] {e : TrackerError} {u : Unit}
    (h : ensure c e t = (.ok u, t')) : c ∧ t = t' := by
  obtain ⟨heq, rfl⟩ := Prod.mk.inj h
  split at heq
  next hc => exact ⟨hc, rfl⟩
  next => cases heq

theorem read_of_eq {get : BytesMut → Option (α × BytesMut)} {a : α} {buf : BytesMut}
    (h : get t.buf = some (a, buf)) : read get t = (.ok a, { t with buf }) := by
  unfold read
  rw [h]

theorem read_eq_ok {get : BytesMut → Option (α × BytesMut)} {a : α}
    (h : read get t = (.ok a, t')) : get t.buf = some (a, t'.buf) := by
  unfold read at h
  split at h
  next => cases (Prod.mk.inj h).1
  next heq =>
    obtain ⟨ha, rfl⟩ := Prod.mk.inj h
    rw [heq, Except.ok.inj ha]

theorem read_getU32 {x : UInt32} (hdata : t.buf.data = u32Bytes x ++ tail) :
    ∃ t', read BytesMut.getU32 t = (.ok x, t') ∧ t'.buf.data = tail := by
  obtain ⟨buf, hget, htail⟩ := BytesMut.getU32_of_eq hdata
  exact ⟨{ t with buf }, read_of_eq hget, htail⟩

theorem read_getU16 {x : UInt16} (hdata : t.buf.data = u16Bytes x ++ tail) :
    ∃ t', read BytesMut.getU16 t = (.ok x, t') ∧ t'.buf.data = tail := by
  obtain ⟨buf, hget, htail⟩ := BytesMut.getU16_of_eq hdata
  exact ⟨{ t with buf }, read_of_eq hget, htail⟩

theorem length_of_read {x : UInt32} (h : read BytesMut.getU32 t = (.ok x, t')) :
    t'.buf.data.length + 4 = t.buf.data.length := BytesMut.getU32_length (read_eq_ok h)

end Facts

end TrackerM

open TrackerM

/-! ## The connection id -/

/-- `validate_action`. The text of an error reply is unwrapped as UTF-8. -/
def validateAction (expected action : UInt32) : TrackerM Unit :=
  if action = expected then pure ()
  else if action = actionError then do
    let msg ← read (BytesMut.get (← remaining))
    match fromUtf8 msg with
    | .ok msg => fail (.error (.tracker msg))
    | .error _ => fail .panicked
  else fail (.error (.action expected action))

/-- `get_conn_id` up to the reply. -/
def askConnId (txId : UInt32) (grow : Nat) (sent : Bool) : TrackerM Unit := do
  clear
  put grow (u64Bytes protocolId)
  put grow (u32Bytes actionConnect)
  put grow (u32Bytes txId)
  let n ← send sent
  ensure ((← remaining) = n) .ensure
  clear

/-- `get_conn_id` from its `recv_buf` on. -/
def connIdReply (txId : UInt32) (datagram : List UInt8) (now : Nat) : TrackerM Unit := do
  recv datagram
  ensure (16 = (← remaining)) .ensure
  let action ← read BytesMut.getU32
  ensure (txId = (← read BytesMut.getU32)) .ensure
  validateAction actionConnect action
  let connId ← read BytesMut.getU64
  modify fun t => { t with connId, connIdTs := now }

/-! ## The announce -/

/-- The arguments of `announce`. -/
structure Announce where
  infoHash : Digest
  peerId : Vector UInt8 20
  downloaded : UInt64
  left : UInt64
  uploaded : UInt64
  deriving DecidableEq, Repr

/-- `send_announce` with a connection id, up to the reply. -/
def askAnnounce (args : Announce) (txId : UInt32) (grow : Nat) (sent : Bool) : TrackerM Unit := do
  clear
  put grow (u64Bytes (← field UdpTracker.connId))
  put grow (u32Bytes actionAnnounce)
  put grow (u32Bytes txId)
  put grow args.infoHash.toList
  put grow args.peerId.toList
  put grow (u64Bytes args.downloaded)
  put grow (u64Bytes args.left)
  put grow (u64Bytes args.uploaded)
  put grow (u32Bytes 0)
  put grow (u32Bytes 0)
  put grow (u32Bytes (← field UdpTracker.key))
  -- `-1`
  put grow (u32Bytes 0xFFFFFFFF)
  put grow (u16Bytes (← field UdpTracker.peerPort))
  let n ← send sent
  ensure (98 = n) .ensure
  clear

/-- The loop over the entries of the response. -/
def readPeers : Nat → TrackerM (List SocketAddr)
  | 0 => pure []
  | n + 1 => do
    let ip ← read BytesMut.getU32
    let port ← read BytesMut.getU16
    let peers ← readPeers n
    pure ({ ip, port } :: peers)

/-- `send_announce` from its `recv_buf` on. -/
def announceReply (txId : UInt32) (datagram : List UInt8) (now : Nat) :
    TrackerM (List SocketAddr × UInt32) := do
  recv datagram
  ensure (20 ≤ (← remaining)) .ensure
  let action ← read BytesMut.getU32
  ensure (txId = (← read BytesMut.getU32)) .ensure
  validateAction actionAnnounce action
  let interval ← read BytesMut.getU32
  -- set before the rest of the reply is checked
  modify fun t => { t with nextAnnounce := now + secs interval.toNat }
  let _leechers ← read BytesMut.getU32
  let seeders ← read BytesMut.getU32
  -- only what arrived is looked at
  ensure ((← remaining) % 6 = 0) .notDivisible
  let numPeers := (← remaining) / 6
  let peers ← readPeers numPeers
  pure (peers, seeders)

/-! ## Requests -/

/-- A request that is sent leaves an empty buffer. -/
theorem askConnId_sent (txId : UInt32) (grow : Nat) (t : UdpTracker) :
    ∃ t', askConnId txId grow true t = (.ok (), t') ∧ t'.buf.data = [] := by
  unfold askConnId
  rw [clear_bind, put_bind, put_bind, put_bind, send_bind, bind_of_ok (remaining_eq _),
    bind_of_ok (ensure_of rfl _)]
  exact ⟨_, rfl, rfl⟩

theorem askConnId_unsent (txId : UInt32) (grow : Nat) (t : UdpTracker) :
    ∃ t', askConnId txId grow false t = (.error (.error .io), t') := by
  unfold askConnId
  rw [clear_bind, put_bind, put_bind, put_bind, unsent_bind]
  exact ⟨_, rfl⟩

/-- A request that is sent leaves the buffer empty. -/
theorem askAnnounce_sent (args : Announce) (txId : UInt32) (grow : Nat) (t : UdpTracker) :
    ∃ t', askAnnounce args txId grow true t = (.ok (), t') ∧ t'.buf.data = [] := by
  unfold askAnnounce
  simp only [clear_bind, put_bind, field_bind, send_bind]
  rw [bind_of_ok (ensure_of _ _)]
  · exact ⟨_, rfl, rfl⟩
  · simp only [BytesMut.remaining, UdpTracker.onBuf_buf, BytesMut.put_data, BytesMut.clear_data,
      List.length_append, List.length_nil, length_u64Bytes, length_u32Bytes, length_u16Bytes,
      Vector.length_toList]

theorem askAnnounce_unsent (args : Announce) (txId : UInt32) (grow : Nat) (t : UdpTracker) :
    ∃ t', askAnnounce args txId grow false t = (.error (.error .io), t') := by
  unfold askAnnounce
  simp only [clear_bind, put_bind, field_bind, unsent_bind]
  exact ⟨_, rfl⟩

/-! ## Responses -/

/-- The six bytes of a peer. -/
def SocketAddr.bytes (peer : SocketAddr) : List UInt8 := u32Bytes peer.ip ++ u16Bytes peer.port

/-- A successful response to an announce. -/
def response (txId interval leechers seeders : UInt32) (peers : List SocketAddr) : List UInt8 :=
  u32Bytes actionAnnounce ++ (u32Bytes txId ++ (u32Bytes interval ++ (u32Bytes leechers ++
    (u32Bytes seeders ++ peers.flatMap SocketAddr.bytes))))

section Response

variable {t t' : UdpTracker} {txId interval leechers seeders action : UInt32}
  {peers : List SocketAddr} {now n : Nat} {tail : List UInt8}

/-- A response has a header of 20 bytes, and six for each peer. -/
theorem length_response (txId interval leechers seeders : UInt32) (peers : List SocketAddr) :
    (response txId interval leechers seeders peers).length = 20 + 6 * peers.length := by
  have hpeers : (peers.flatMap SocketAddr.bytes).length = 6 * peers.length := by
    induction peers with
    | nil => rfl
    | cons peer peers ih =>
      rw [List.flatMap_cons, List.length_append, ih, List.length_cons]
      show 6 + _ = _
      omega
  simp only [response, List.length_append, length_u32Bytes, hpeers]
  omega

/-- Peers that stand in the buffer are read. -/
theorem readPeers_of_eq :
    ∀ {peers : List SocketAddr} {t : UdpTracker},
      t.buf.data = peers.flatMap SocketAddr.bytes ++ tail →
      ∃ t', readPeers peers.length t = (.ok peers, t') ∧ t'.buf.data = tail := by
  intro peers
  induction peers with
  | nil => intro t hdata; exact ⟨t, rfl, hdata⟩
  | cons peer peers ih =>
    intro t hdata
    have hip : t.buf.data = u32Bytes peer.ip ++ (u16Bytes peer.port ++
        (peers.flatMap SocketAddr.bytes ++ tail)) := by
      rw [hdata, List.flatMap_cons, SocketAddr.bytes]
      simp only [List.append_assoc]
    obtain ⟨t₁, h₁, hport⟩ := read_getU32 hip
    obtain ⟨t₂, h₂, hrest⟩ := read_getU16 hport
    obtain ⟨t₃, h₃, htail⟩ := ih hrest
    refine ⟨t₃, ?_, htail⟩
    show readPeers (peers.length + 1) t = _
    unfold readPeers
    rw [bind_of_ok h₁, bind_of_ok h₂, bind_of_ok h₃]
    rfl

/-- As many peers are read as are asked for. -/
theorem readPeers_length :
    ∀ {n : Nat} {t t' : UdpTracker} {peers : List SocketAddr},
      readPeers n t = (.ok peers, t') → peers.length = n := by
  intro n
  induction n with
  | zero =>
    intro t t' peers h
    rw [← Except.ok.inj (Prod.mk.inj h).1]
    rfl
  | succ n ih =>
    intro t t' peers h
    obtain ⟨ip, t₁, -, h⟩ := bind_eq_ok h
    obtain ⟨port, t₂, -, h⟩ := bind_eq_ok h
    obtain ⟨rest, t₃, hrest, h⟩ := bind_eq_ok h
    rw [← Except.ok.inj (Prod.mk.inj h).1, List.length_cons, ih hrest]

/-- A response that arrives whole is read as it was sent. -/
theorem announceReply_of_eq {datagram : List UInt8}
    (hdata : (t.buf.recv datagram).data = response txId interval leechers seeders peers) :
    ∃ t', announceReply txId datagram now t = (.ok (peers, seeders), t') := by
  let t₀ := t.onBuf fun buf => buf.recv datagram
  have hlen : t₀.buf.data.length = 20 + 6 * peers.length := by
    rw [show t₀.buf.data = _ from hdata, length_response]
  obtain ⟨t₁, h₁, hd₁⟩ := read_getU32 (show t₀.buf.data = _ from hdata)
  obtain ⟨t₂, h₂, hd₂⟩ := read_getU32 hd₁
  obtain ⟨t₃, h₃, hd₃⟩ := read_getU32 hd₂
  let t₄ : UdpTracker := { t₃ with nextAnnounce := now + secs interval.toNat }
  obtain ⟨t₅, h₅, hd₅⟩ := read_getU32 (show t₄.buf.data = _ from hd₃)
  obtain ⟨t₆, h₆, hd₆⟩ := read_getU32 hd₅
  -- what remains now are the peers
  have hrem : t₆.buf.data.length = 6 * peers.length := by
    have := length_of_read h₁
    have := length_of_read h₂
    have := length_of_read h₃
    have : t₄.buf.data.length = t₃.buf.data.length := rfl
    have := length_of_read h₅
    have := length_of_read h₆
    omega
  rw [← List.append_nil (peers.flatMap _)] at hd₆
  obtain ⟨t₇, h₇, -⟩ := readPeers_of_eq hd₆
  have hdiv : t₆.buf.remaining % 6 = 0 := by
    show t₆.buf.data.length % 6 = 0
    omega
  have hnum : t₆.buf.remaining / 6 = peers.length := by
    show t₆.buf.data.length / 6 = _
    omega
  have hle : 20 ≤ t₀.buf.remaining := by
    show 20 ≤ t₀.buf.data.length
    omega
  refine ⟨t₇, ?_⟩
  unfold announceReply
  rw [bind_of_ok (show recv datagram t = (.ok (), t₀) from rfl), bind_of_ok (remaining_eq t₀),
    bind_of_ok (ensure_of hle t₀), bind_of_ok h₁, bind_of_ok h₂, bind_of_ok (ensure_of rfl t₂)]
  unfold validateAction
  rw [if_pos rfl, bind_of_ok (show (pure () : TrackerM Unit) t₂ = _ from rfl), bind_of_ok h₃,
    bind_of_ok (show modify _ t₃ = (.ok (), t₄) from rfl), bind_of_ok h₅, bind_of_ok h₆,
    bind_of_ok (remaining_eq t₆), bind_of_ok (ensure_of hdiv t₆), bind_of_ok (remaining_eq t₆),
    hnum, bind_of_ok h₇]
  rfl

/-- Only the expected action passes. -/
theorem validateAction_eq_ok {expected : UInt32} {u : Unit}
    (h : validateAction expected action t = (.ok u, t')) : action = expected ∧ t = t' := by
  unfold validateAction at h
  split at h
  next heq => exact ⟨heq, (Prod.mk.inj h).2⟩
  next =>
    split at h
    next =>
      obtain ⟨n, t₁, -, h⟩ := bind_eq_ok h
      obtain ⟨msg, t₂, -, h⟩ := bind_eq_ok h
      cases hmsg : fromUtf8 msg with
      | ok str =>
        rw [hmsg] at h
        cases (Prod.mk.inj h).1
      | error e =>
        rw [hmsg] at h
        cases (Prod.mk.inj h).1
    next => cases (Prod.mk.inj h).1

/-- The datagram is read to its end: every peer that is returned was among the
bytes received, and there were no others. -/
theorem length_of_announceReply {datagram : List UInt8}
    (h : announceReply txId datagram now t = (.ok (peers, seeders), t')) :
    (t.buf.recv datagram).data.length = 20 + 6 * peers.length := by
  obtain ⟨_, t₀, hrecv, h⟩ := bind_eq_ok h
  have hbuf : t.buf.recv datagram = t₀.buf := by
    rw [← (Prod.mk.inj hrecv).2]
    rfl
  obtain ⟨n₀, t₁, hn₀, h⟩ := bind_eq_ok h
  obtain ⟨-, rfl⟩ := remaining_eq_ok hn₀
  obtain ⟨_, t₁, hens, h⟩ := bind_eq_ok h
  obtain ⟨-, rfl⟩ := ensure_eq_ok hens
  obtain ⟨action, t₂, haction, h⟩ := bind_eq_ok h
  obtain ⟨tx, t₃, htx, h⟩ := bind_eq_ok h
  obtain ⟨_, t₄, hens, h⟩ := bind_eq_ok h
  obtain ⟨-, rfl⟩ := ensure_eq_ok hens
  obtain ⟨_, t₅, hvalid, h⟩ := bind_eq_ok h
  obtain ⟨-, rfl⟩ := validateAction_eq_ok hvalid
  obtain ⟨interval, t₆, hinterval, h⟩ := bind_eq_ok h
  obtain ⟨_, t₇, hmodify, h⟩ := bind_eq_ok h
  obtain ⟨leechers, t₈, hleechers, h⟩ := bind_eq_ok h
  obtain ⟨seeders', t₉, hseeders, h⟩ := bind_eq_ok h
  -- five words of four bytes; what remains is a number of whole peers
  obtain ⟨n₁, t₁₀, hn₁, h⟩ := bind_eq_ok h
  obtain ⟨rfl, rfl⟩ := remaining_eq_ok hn₁
  obtain ⟨_, t₁₁, hens, h⟩ := bind_eq_ok h
  obtain ⟨hdiv, rfl⟩ := ensure_eq_ok hens
  obtain ⟨n₂, t₁₂, hn₂, h⟩ := bind_eq_ok h
  obtain ⟨rfl, rfl⟩ := remaining_eq_ok hn₂
  obtain ⟨peers', t₁₃, hpeers, h⟩ := bind_eq_ok h
  have hret : (peers', seeders') = (peers, seeders) := Except.ok.inj (Prod.mk.inj h).1
  rw [← (Prod.mk.inj hret).1, readPeers_length hpeers]
  change t₉.buf.data.length % 6 = 0 at hdiv
  show _ = 20 + 6 * (t₉.buf.data.length / 6)
  rw [hbuf]
  have := length_of_read haction
  have := length_of_read htx
  have := length_of_read hinterval
  have : t₇.buf.data.length = t₆.buf.data.length := by rw [← (Prod.mk.inj hmodify).2]
  have := length_of_read hleechers
  have := length_of_read hseeders
  omega

/-- The peers of a response are returned exactly when there is room for it. -/
theorem announceReply_response_iff (hempty : t.buf.data = []) :
    (∃ t', announceReply txId (response txId interval leechers seeders peers) now t =
        (.ok (peers, seeders), t')) ↔
      20 + 6 * peers.length ≤ t.buf.capacity := by
  have hlen := length_response txId interval leechers seeders peers
  constructor
  · intro h
    obtain ⟨t', h⟩ := h
    have hread := length_of_announceReply h
    rw [BytesMut.recv_data hempty, List.length_take, hlen] at hread
    omega
  · intro hfit
    exact announceReply_of_eq (BytesMut.recv_data_of_le hempty (by rw [hlen]; exact hfit))

end Response

end Udp

end BitTorrent
