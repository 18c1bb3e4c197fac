import BitTorrent.Download.Handshake
import BitTorrent.Download.IsSeed
import BitTorrent.Download.RoundTrip

/-!
# Which peers are taken for seeds (`check_is_seed`)

`HandshakeCodec` and `MessageCodec` decode one buffer, one after the other: what
came behind the handshake is there when the first message is decoded, and what
comes behind the first message is there for the download. So a peer is accepted
exactly when its stream is a handshake and the frame of a bitfield that passes
`is_seed`, wherever it is cut (`checkIsSeed_eq_ok`, `checkIsSeed_accepts`).

The fields of the peer's handshake are decoded, and none of them is looked at.
An accepted peer is a seed of this torrent exactly when its handshake happens to
be one for this torrent, and its bitfield is not the empty one, which passes the
test in a build without overflow checks: `check_is_seed_iff`.

Mirroring notes:

* a `PeerStream` is a `Framed` and what will be read from its socket, cut in any
  way. It ends when the peer closes it, or after the five seconds that
  `pick_seeds` waits; the connection itself is made before;
* `next` decodes what is buffered before it reads on. At the end of the stream
  `decode_eof` decodes once more, and bytes that are left then are an error
  (`Refusal.bytesRemaining`);
* `map_codec` keeps the buffer, so the second codec finds what the first one left;
* what is sent to the peer is recorded, and a send may fail.
-/

namespace BitTorrent

/-- A `Framed<TcpStream, _>`: the bytes that are read and not decoded, the reads
to come before the peer closes the stream (or the five seconds are over), what
was sent, and whether a send succeeds. -/
structure PeerStream where
  readBuf : List UInt8
  incoming : List (List UInt8)
  sent : List UInt8
  writable : Bool
  deriving DecidableEq, Repr

namespace PeerStream

/-- `TcpStream::connect` -/
def connect (incoming : List (List UInt8)) (writable : Bool) : PeerStream :=
  ⟨[], incoming, [], writable⟩

/-- All that the peer sends and nobody has decoded yet. -/
def unread (stream : PeerStream) : List UInt8 := stream.readBuf ++ stream.incoming.flatten

/-- `Framed::send`, which may fail. -/
def send (stream : PeerStream) (frame : List UInt8) : Option PeerStream :=
  if stream.writable then some { stream with sent := stream.sent ++ frame } else none

/-- `.more` is a stream that ended. -/
def next {α ε : Type} (dec : StreamDecoder UInt8 α ε) (stream : PeerStream) :
    Verdict α ε × PeerStream :=
  let (v, readBuf, incoming) := dec.next stream.readBuf stream.incoming
  (v, { stream with readBuf, incoming })

section Next

variable {α ε : Type} {dec : StreamDecoder UInt8 α ε} {stream stream' : PeerStream}

/-- The bytes that an item was decoded from come first. -/
theorem next_run (hkeep : dec.Keeps) {a : α} (h : stream.next dec = (.item a, stream')) :
    ∃ received, dec.run received = (.item a, stream'.readBuf) ∧
      received ++ stream'.incoming.flatten = stream.unread := by
  obtain ⟨hv, hs⟩ := Prod.mk.inj h
  rw [← hs]
  exact hkeep.next_run (v := .item a) (by simp) (Prod.ext hv rfl)

/-- When a frame stands at the front of what is unread, `next` returns its item,
however it arrives. -/
theorem next_frame {enc : α → List UInt8} {ok : α → Prop} (h : dec.Encodes enc ok) {a : α}
    (ha : ok a) {tail : List UInt8} (heq : stream.unread = enc a ++ tail) :
    ∃ stream', stream.next dec = (.item a, stream') ∧ stream'.unread = tail := by
  obtain ⟨rest, left, hnext, htail⟩ := StreamDecoder.next_frame h ha heq
  refine ⟨{ stream with readBuf := rest, incoming := left }, ?_, htail⟩
  unfold next
  rw [hnext]

end Next

end PeerStream

/-- What ends the check of a peer, unless it is accepted. `bytesRemaining` is the
error of `decode_eof` for a stream that ends inside a frame. -/
inductive Refusal
  | sendFailed
  | endedDuringHandshake
  | endedBeforeFirstMsg
  | bytesRemaining
  | invalidData
  | notSeed
  | notBitfield (m : Message)
  | panicked
  deriving DecidableEq, Repr

/-- The stream ended, and the decoder asks for more: `decode_eof` is content with an
empty buffer only. -/
def PeerStream.ended (stream : PeerStream) (e : Refusal) : Refusal :=
  if stream.readBuf = [] then e else .bytesRemaining

/-- `handshake`: ours is sent, and theirs is decoded. -/
def handshake (id : Vector UInt8 20) (infoHash : Digest) (handshakeStream : PeerStream) :
    Except Refusal (Handshake × PeerStream) :=
  let handshake := Handshake.new infoHash id
  match handshakeStream.send (HandshakeCodec.encode handshake []) with
  | none => .error .sendFailed
  | some handshakeStream =>
    match handshakeStream.next HandshakeCodec.codec with
    | (.more, stream) => .error (stream.ended .endedDuringHandshake)
    | (.stop .invalidData, _) => .error .invalidData
    | (.stop .panicked, _) => .error .panicked
    | (.item peerHandshake, handshakeStream) => .ok (peerHandshake, handshakeStream)

/-- `check_is_seed`, once the peer is connected. -/
def checkIsSeed (p : Profile) (id : Vector UInt8 20) (infoHash : Digest) (totalPieces : Nat)
    (stream : PeerStream) : Except Refusal PeerStream :=
  match handshake id infoHash stream with
  | .error e => .error e
  | .ok (_peerHandshake, stream) =>
    -- `map_codec` keeps the buffer
    match stream.next (MessageCodec.codec p) with
    | (.more, stream) => .error (stream.ended .endedBeforeFirstMsg)
    | (.stop .invalidData, _) => .error .invalidData
    | (.stop .panicked, _) => .error .panicked
    | (.item (.bitfield bytes), messageStream) =>
      match isSeed p totalPieces bytes with
      | none => .error .panicked
      | some false => .error .notSeed
      | some true => .ok messageStream
    | (.item m, _) => .error (.notBitfield m)

/-- The stream of a seed of this torrent: a handshake for it, and a bitfield that
has every piece. The `rest` comes behind it. -/
def SeedOf (infoHash : Digest) (n : Nat) (stream rest : List UInt8) : Prop :=
  ∃ (h : Handshake) (bytes : List UInt8), (Message.bitfield bytes).Framed ∧
    stream = h.bytes ++ (MessageCodec.frame (.bitfield bytes) ++ rest) ∧
    h.For infoHash ∧ HasAll n bytes

/-- A stream with a bitfield that passes the test starts with a handshake for
this torrent, and the bitfield is not empty (when there are pieces). -/
def Trusted (p : Profile) (infoHash : Digest) (n : Nat) (stream : List UInt8) : Prop :=
  ∀ (h : Handshake) (bytes rest : List UInt8), (Message.bitfield bytes).Framed →
    stream = h.bytes ++ (MessageCodec.frame (.bitfield bytes) ++ rest) →
    isSeed p n bytes = some true → h.For infoHash ∧ (bytes ≠ [] ∨ n = 0)

section Check

variable {p : Profile} {n : Nat} {id : Vector UInt8 20} {infoHash : Digest}
  {stream stream' : PeerStream} {h : Handshake} {bytes tail : List UInt8}

/-! ## What is accepted -/

/-- A handshake that is accepted stood at the front of the stream. -/
theorem handshake_eq_ok (hok : handshake id infoHash stream = .ok (h, stream')) :
    stream.unread = h.bytes ++ stream'.unread := by
  unfold handshake at hok
  dsimp only at hok
  split at hok
  · cases hok
  next sent hsend =>
    have hunread : sent.unread = stream.unread := by
      unfold PeerStream.send at hsend
      split at hsend
      · rw [← Option.some.inj hsend]
        rfl
      · cases hsend
    split at hok
    · cases hok
    · cases hok
    · cases hok
    next hnext =>
      obtain ⟨rfl, rfl⟩ := Prod.mk.inj (Except.ok.inj hok)
      obtain ⟨received, hrun, heq⟩ := PeerStream.next_run HandshakeCodec.codec_keeps hnext
      rw [← hunread, ← heq, HandshakeCodec.decode_eq_item.mp hrun, List.append_assoc]
      rfl

/-- **What is accepted**: a handshake, and the frame of a bitfield that passes
the test. The rest is left for the download. -/
theorem checkIsSeed_eq_ok (hok : checkIsSeed p id infoHash n stream = .ok stream') :
    ∃ (h : Handshake) (bytes : List UInt8),
      (Message.bitfield bytes).Framed ∧ isSeed p n bytes = some true ∧
      stream.unread = h.bytes ++ (MessageCodec.frame (.bitfield bytes) ++ stream'.unread) := by
  unfold checkIsSeed at hok
  split at hok
  · cases hok
  next h messages hhand =>
    rw [handshake_eq_ok hhand]
    split at hok
    · cases hok
    · cases hok
    · cases hok
    next bytes left hnext =>
      split at hok
      · cases hok
      · cases hok
      next hseed =>
        rw [← Except.ok.inj hok]
        obtain ⟨received, hrun, heq⟩ := PeerStream.next_run (MessageCodec.codec_keeps p) hnext
        obtain ⟨hframed, hreceived⟩ := MessageCodec.decode_bitfield hrun
        refine ⟨h, bytes, hframed, hseed, ?_⟩
        rw [← heq, hreceived, List.append_assoc]
        rfl
    · cases hok

/-- Such a stream is accepted, however it is cut. -/
theorem checkIsSeed_accepts (id : Vector UInt8 20) (infoHash : Digest)
    (hframed : (Message.bitfield bytes).Framed) (hseed : isSeed p n bytes = some true)
    (hwrite : stream.writable = true)
    (heq : stream.unread = h.bytes ++ (MessageCodec.frame (.bitfield bytes) ++ tail)) :
    ∃ stream', checkIsSeed p id infoHash n stream = .ok stream' ∧ stream'.unread = tail := by
  obtain ⟨sent, hsend, hunread⟩ : ∃ sent,
      stream.send (HandshakeCodec.encode (Handshake.new infoHash id) []) = some sent ∧
        sent.unread = stream.unread := ⟨_, if_pos hwrite, rfl⟩
  obtain ⟨messages, hhand, hmessages⟩ :=
    PeerStream.next_frame HandshakeCodec.codec_encodes trivial (hunread.trans heq)
  obtain ⟨left, hbitfield, hleft⟩ :=
    PeerStream.next_frame (MessageCodec.codec_encodes p) hframed hmessages
  refine ⟨left, ?_, hleft⟩
  unfold checkIsSeed handshake
  simp only [hsend, hhand, hbitfield, hseed]

/-- Two streams that start with a handshake and the frame of a bitfield are the
same only when these are. -/
theorem seed_stream_inj {h' : Handshake} {bytes' : List UInt8}
    (hframed : (Message.bitfield bytes).Framed) (hframed' : (Message.bitfield bytes').Framed)
    (heq : h.bytes ++ (MessageCodec.frame (.bitfield bytes) ++ tail) =
      h'.bytes ++ (MessageCodec.frame (.bitfield bytes') ++ tail)) : h = h' ∧ bytes = bytes' := by
  have hhand := HandshakeCodec.decode_eq_item.mpr heq
  rw [HandshakeCodec.decode_eq_item.mpr rfl] at hhand
  obtain ⟨hh, hrest⟩ := Prod.mk.inj hhand
  have hmsg := MessageCodec.decode_frame .dev hframed tail
  rw [hrest, MessageCodec.decode_frame .dev hframed'] at hmsg
  exact ⟨Verdict.item.inj hh,
    (Message.bitfield.inj (Verdict.item.inj (Prod.mk.inj hmsg).1)).symm⟩

/-- **A peer that is accepted is a seed of this torrent, exactly when** a stream
that passes the test of its bitfield carries the right handshake, too. -/
theorem check_is_seed_iff (hn : n < 2 ^ 32) (p : Profile) (id : Vector UInt8 20)
    (infoHash : Digest) (incoming : List (List UInt8)) :
    (∀ writable stream', checkIsSeed p id infoHash n (.connect incoming writable) = .ok stream' →
      SeedOf infoHash n incoming.flatten stream'.unread) ↔
      Trusted p infoHash n incoming.flatten := by
  constructor
  · intro hsound h bytes rest hframed heq hseed
    have haccept : ∃ stream', checkIsSeed p id infoHash n (.connect incoming true) = .ok stream' ∧
        stream'.unread = rest := checkIsSeed_accepts id infoHash hframed hseed rfl heq
    obtain ⟨stream', hok, hrest⟩ := haccept
    obtain ⟨h', bytes', hframed', heq', hfor, hall⟩ := hsound true stream' hok
    rw [hrest, heq] at heq'
    obtain ⟨rfl, rfl⟩ := seed_stream_inj hframed hframed' heq'
    refine ⟨hfor, ?_⟩
    by_cases hnil : bytes = []
    · rw [hnil] at hall
      exact Or.inr (hasAll_nil.mp hall)
    · exact Or.inl hnil
  · intro htrust writable stream' hok
    obtain ⟨h, bytes, hframed, hseed, heq⟩ := checkIsSeed_eq_ok hok
    obtain ⟨hfor, hne⟩ := htrust h bytes stream'.unread hframed heq hseed
    refine ⟨h, bytes, hframed, heq, hfor, ?_⟩
    have hlen : bytes.length + 1 < 2 ^ 32 := hframed
    by_cases hnil : bytes = []
    · rw [hnil]
      exact hasAll_nil.mpr (hne.resolve_left fun hne => hne hnil)
    · exact hasAll_of_isSeed hn (by omega) hnil hseed

/-- A seed of a torrent of two pieces, in two reads. -/
def seedOfTwo (infoHash : Digest) : List (List UInt8) :=
  [(Handshake.new infoHash (Vector.replicate 20 8)).bytes,
    MessageCodec.frame (.bitfield [0b11000000])]

theorem check_is_seed_iff_two :
    (∀ writable stream', checkIsSeed .dev (Vector.replicate 20 7) (Vector.replicate 20 1) 2
        (.connect (seedOfTwo (Vector.replicate 20 1)) writable) = .ok stream' →
      SeedOf (Vector.replicate 20 1) 2 (seedOfTwo (Vector.replicate 20 1)).flatten
        stream'.unread) ↔
      Trusted .dev (Vector.replicate 20 1) 2 (seedOfTwo (Vector.replicate 20 1)).flatten :=
  check_is_seed_iff (by decide) .dev (Vector.replicate 20 7) (Vector.replicate 20 1) _

/-- A seed of another torrent that has two pieces as well. -/
theorem foreign_seed_accepted :
    ∃ stream', checkIsSeed .dev (Vector.replicate 20 7) (Vector.replicate 20 1) 2
        (.connect (seedOfTwo (Vector.replicate 20 2)) true) = .ok stream' ∧
      ¬ SeedOf (Vector.replicate 20 1) 2 (seedOfTwo (Vector.replicate 20 2)).flatten
        stream'.unread := by
  have hframed : (Message.bitfield [0b11000000]).Framed := by decide
  have haccept : ∃ stream', checkIsSeed .dev (Vector.replicate 20 7) (Vector.replicate 20 1) 2
      (.connect (seedOfTwo (Vector.replicate 20 2)) true) = .ok stream' ∧ stream'.unread = [] :=
    checkIsSeed_accepts _ _ hframed (by decide) rfl rfl
  obtain ⟨stream', hok, hrest⟩ := haccept
  refine ⟨stream', hok, fun hseed => ?_⟩
  obtain ⟨h, bytes, hframed', heq, hfor, -⟩ := hseed
  rw [hrest] at heq
  obtain ⟨rfl, -⟩ := seed_stream_inj hframed hframed' heq
  exact absurd hfor.2.2 (by decide)

end Check

end BitTorrent
