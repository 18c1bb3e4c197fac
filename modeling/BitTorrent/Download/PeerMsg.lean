import BitTorrent.Lib.Bytes
import BitTorrent.Lib.Frames
import BitTorrent.Lib.Machine

/-!
# Peer messages (`download/peer_msg.rs`)

`Message` is what peers exchange once the handshake is done. `Framed` says that
a message fits a frame, whose length is a `u32`: the codec decodes no other.

`MessageCodec.decode` looks at the receive buffer. `Verdict.more` is `Ok(None)`,
`Verdict.item` is `Ok(Some(message))`, and it stops with an error or a panic; the
buffer it leaves behind comes next to it. `encode` appends to a buffer, and
panics (`none`) when the length of the frame overflows and the build checks.

Mirroring notes:

* the buffers are those of `Lib.Bytes`, and every `get_u32` and `copy_to_slice` is
  checked against what is left in them. `reserve` is left out: it makes room and
  changes no byte;
* `vec![0; n]` panics when `n` is more than a vector can have (`zeroed`). So the
  wrapped `msg_len - 9` of a build without checks is a panic all the same;
* a panic leaves the buffer as it was when the type had been read. Nobody looks at
  it afterwards;
* `msg_len` is an `usize` of 64 bits, and `4 + msg_len` does not overflow.
-/

namespace BitTorrent

/-- `Message`. -/
inductive Message
  | keepAlive
  | choke
  | unchoke
  | interested
  | notInterested
  | have (pieceIndex : UInt32)
  | bitfield (bytes : List UInt8)
  | request (index begin length : UInt32)
  | piece (index begin : UInt32) (block : List UInt8)
  | cancel (index begin length : UInt32)
  deriving DecidableEq, Repr

/-- The payload and the bytes before it are fewer than `2 ^ 32`. -/
def Message.Framed : Message → Prop
  | .bitfield bytes => bytes.length + 1 < 2 ^ 32
  | .piece _ _ block => block.length + 9 < 2 ^ 32
  | _ => True

instance : ∀ msg : Message, Decidable msg.Framed
  | .bitfield bytes => inferInstanceAs (Decidable (bytes.length + 1 < 2 ^ 32))
  | .piece _ _ block => inferInstanceAs (Decidable (block.length + 9 < 2 ^ 32))
  | .keepAlive | .choke | .unchoke | .interested | .notInterested | .have _ | .request ..
  | .cancel .. => isTrue trivial

/-! ## The codec -/

/-- `MessageType`. -/
inductive MessageType
  | choke
  | unchoke
  | interested
  | notInterested
  | have
  | bitfield
  | request
  | piece
  | cancel
  deriving DecidableEq, Repr

/-- `none` is the error `InvalidData`. -/
def MessageType.tryFrom : UInt8 → Option MessageType
  | 0 => some .choke
  | 1 => some .unchoke
  | 2 => some .interested
  | 3 => some .notInterested
  | 4 => some .have
  | 5 => some .bitfield
  | 6 => some .request
  | 7 => some .piece
  | 8 => some .cancel
  | _ => none

/-- `msg_type as u8`. -/
def MessageType.toU8 : MessageType → UInt8
  | .choke => 0
  | .unchoke => 1
  | .interested => 2
  | .notInterested => 3
  | .have => 4
  | .bitfield => 5
  | .request => 6
  | .piece => 7
  | .cancel => 8

theorem MessageType.tryFrom_toU8 (t : MessageType) : tryFrom t.toU8 = some t := by
  cases t <;> rfl

/-- What ends a call of `decode` other than a message or the wait for one. -/
inductive DecodeStop
  | invalidData
  | panicked
  deriving DecidableEq, Repr

namespace MessageCodec

/-- The message behind the type byte; `none` is a panic. -/
def decodeBody (p : Profile) (msgLen : Nat) :
    MessageType → List UInt8 → Option (Message × List UInt8)
  | .choke, src => some (.choke, src)
  | .unchoke, src => some (.unchoke, src)
  | .interested, src => some (.interested, src)
  | .notInterested, src => some (.notInterested, src)
  | .have, src => do
    let (pieceIndex, src) ← getU32 src
    some (.have pieceIndex, src)
  | .bitfield, src => do
    let bitfield ← zeroed (← p.sub 64 msgLen 1)
    let (bitfield, src) ← copyToSlice src bitfield
    some (.bitfield bitfield, src)
  | .request, src => do
    let (index, src) ← getU32 src
    let (begin, src) ← getU32 src
    let (length, src) ← getU32 src
    some (.request index begin length, src)
  | .piece, src => do
    -- the length minus the type, the index and the begin
    let block ← zeroed (← p.sub 64 msgLen 9)
    let (index, src) ← getU32 src
    let (begin, src) ← getU32 src
    let (block, src) ← copyToSlice src block
    some (.piece index begin block, src)
  | .cancel, src => do
    let (index, src) ← getU32 src
    let (begin, src) ← getU32 src
    let (length, src) ← getU32 src
    some (.cancel index begin length, src)

/-- `MessageCodec::decode`. -/
def decode (p : Profile) (src : List UInt8) : Verdict Message DecodeStop × List UInt8 :=
  if src.length < 4 then (.more, src)
  else
    let msgLen := (u32OfBytes (src.take 4)).toNat
    if 4 + msgLen ≤ src.length then
      let src := src.drop 4
      if msgLen = 0 then (.item .keepAlive, src)
      else
        match getU8 src with
        | none => (.stop .panicked, src)
        | some (byte, src) =>
          match MessageType.tryFrom byte with
          | none => (.stop .invalidData, src)
          | some msgType =>
            match decodeBody p msgLen msgType src with
            | none => (.stop .panicked, src)
            | some (msg, src) => (.item msg, src)
    else (.more, src)

/-- `MessageCodec::encode`; `none` is an overflow in a length. -/
def encode (p : Profile) (item : Message) (dst : List UInt8) : Option (List UInt8) :=
  match item with
  | .keepAlive => some (putU32 dst 0)
  | .choke => some (putU8 (putU32 dst 1) MessageType.choke.toU8)
  | .unchoke => some (putU8 (putU32 dst 1) MessageType.unchoke.toU8)
  | .interested => some (putU8 (putU32 dst 1) MessageType.interested.toU8)
  | .notInterested => some (putU8 (putU32 dst 1) MessageType.notInterested.toU8)
  | .have pieceIndex => some (putU32 (putU8 (putU32 dst 5) MessageType.have.toU8) pieceIndex)
  | .bitfield bitfield => do
    let len ← p.add 32 (asU32 bitfield.length) 1
    some (putU8 (putU32 dst (.ofNat len)) MessageType.bitfield.toU8 ++ bitfield)
  | .request index begin length =>
    let dst := putU8 (putU32 dst 13) MessageType.request.toU8
    some (putU32 (putU32 (putU32 dst index) begin) length)
  | .piece index begin block => do
    let len ← p.add 32 9 (asU32 block.length)
    let dst := putU8 (putU32 dst (.ofNat len)) MessageType.piece.toU8
    some (putU32 (putU32 dst index) begin ++ block)
  | .cancel index begin length =>
    let dst := putU8 (putU32 dst 13) MessageType.cancel.toU8
    some (putU32 (putU32 (putU32 dst index) begin) length)

end MessageCodec

end BitTorrent
