import BitTorrent.Bencode.InfoHash
import BitTorrent.Tracker.Udp

/-!
# The compact list of peers (`tracker/peers.rs`)

`Peers` is decoded from a byte string, six bytes for each peer. `visitBytes`
accepts exactly the strings whose length is a multiple of six, and each of them
is the list that it is decoded to (`visitBytes_eq_ok`).

So no byte string is read in two ways, and the peers are in the order of the bytes.
`Peer.bytes` writes a peer back, and a list of peers without ids is what its bytes
are decoded to.

Mirroring notes:

* an `Ipv4Addr` is its 32 bits, the first byte the highest, and the port is
  big-endian;
* `Peer` can be decoded from a dictionary as well, by the derived `Deserialize`. A
  `Peers` never is, so that is left out;
* of the error of the visitor the length is kept, and not the text it is put into.
-/

namespace BitTorrent

/-- `Ipv4Addr` is a number here. -/
structure Peer where
  id : Option String
  ip : UInt32
  port : UInt16
  deriving DecidableEq, Repr

/-- The errors of the visitor: what is there is no byte string, or one of a wrong
length. -/
inductive PeersError
  | invalidType
  | invalidLength (len : Nat)
  deriving DecidableEq, Repr

/-- The loop over `chunks_exact(6)`. -/
def chunkPeers : List UInt8 → List Peer
  | c₀ :: c₁ :: c₂ :: c₃ :: c₄ :: c₅ :: v =>
    { id := none, ip := u32OfBytes [c₀, c₁, c₂, c₃], port := u16OfBytes [c₄, c₅] } :: chunkPeers v
  | _ => []

/-- `PeersVisitor::visit_bytes`. -/
def visitBytes (v : List UInt8) : Except PeersError (List Peer) :=
  if v.length % 6 ≠ 0 then .error (.invalidLength v.length) else .ok (chunkPeers v)

/-- `Peers::deserialize` asks for bytes and takes nothing else. -/
def peersOf : Bencode.Tree → Except PeersError (List Peer)
  | .bytes v => visitBytes v
  | _ => .error .invalidType

/-- Where the peer listens. -/
def Peer.addr (peer : Peer) : Udp.SocketAddr := ⟨peer.ip, peer.port⟩

/-- The six bytes of a peer. Its id is not among them. -/
def Peer.bytes (peer : Peer) : List UInt8 := peer.addr.bytes

section Peers

variable {v : List UInt8} {peers : List Peer}

theorem u16Bytes_u16OfBytes (a b : UInt8) : u16Bytes (u16OfBytes [a, b]) = [a, b] := by
  have ha := a.toNat_lt
  have hb := b.toNat_lt
  simp only [u16OfBytes, u16Bytes, beNat, List.foldl_cons, List.foldl_nil, UInt16.toNat_ofNat',
    List.cons.injEq, ← UInt8.toNat_inj, UInt8.toNat_ofNat']
  refine ⟨?_, ?_, trivial⟩ <;> omega

/-- A chunk is the six bytes of its peer. -/
theorem bytes_of_chunk (c₀ c₁ c₂ c₃ c₄ c₅ : UInt8) (id : Option String) :
    Peer.bytes ⟨id, u32OfBytes [c₀, c₁, c₂, c₃], u16OfBytes [c₄, c₅]⟩ =
      [c₀, c₁, c₂, c₃, c₄, c₅] := by
  show u32Bytes (u32OfBytes [c₀, c₁, c₂, c₃]) ++ u16Bytes (u16OfBytes [c₄, c₅]) = _
  rw [u32Bytes_u32OfBytes rfl, u16Bytes_u16OfBytes]
  rfl

/-- The first six bytes are the first peer. -/
theorem chunkPeers_bytes (peer : Peer) (v : List UInt8) :
    chunkPeers (peer.bytes ++ v) = { peer with id := none } :: chunkPeers v := by
  have hip := u32OfBytes_u32Bytes peer.ip
  have hport := u16OfBytes_u16Bytes peer.port
  show (⟨none, u32OfBytes (u32Bytes peer.ip), u16OfBytes (u16Bytes peer.port)⟩ : Peer) ::
    chunkPeers v = _
  rw [hip, hport]

/-- Six bytes for each peer. -/
theorem length_peerBytes (peers : List Peer) :
    (peers.flatMap Peer.bytes).length = 6 * peers.length := by
  induction peers with
  | nil => rfl
  | cons peer peers ih =>
    rw [List.flatMap_cons, List.length_append, ih, List.length_cons]
    show 6 + _ = _
    omega

theorem chunkPeers_flatMap (peers : List Peer) :
    chunkPeers (peers.flatMap Peer.bytes) = peers.map fun peer => { peer with id := none } := by
  induction peers with
  | nil => rfl
  | cons peer peers ih => rw [List.flatMap_cons, chunkPeers_bytes, ih, List.map_cons]

/-- The peers are all of the bytes, if these are divisible by six. -/
theorem flatMap_chunkPeers (h : v.length % 6 = 0) : (chunkPeers v).flatMap Peer.bytes = v := by
  induction v using chunkPeers.induct with
  | case1 c₀ c₁ c₂ c₃ c₄ c₅ v ih =>
    rw [chunkPeers, List.flatMap_cons, bytes_of_chunk,
      ih (by simp only [List.length_cons] at h; omega)]
    rfl
  | case2 v hshort =>
    -- fewer than six bytes, and a multiple of six
    match v with
    | [] => rfl
    | [_] | [_, _] | [_, _, _] | [_, _, _, _] | [_, _, _, _, _] => simp at h
    | _ :: _ :: _ :: _ :: _ :: _ :: _ => exact absurd rfl (hshort _ _ _ _ _ _ _)

/-- A compact peer has no id. -/
theorem id_chunkPeers (v : List UInt8) : ∀ peer ∈ chunkPeers v, peer.id = none := by
  induction v using chunkPeers.induct with
  | case1 c₀ c₁ c₂ c₃ c₄ c₅ v ih =>
    intro peer hpeer
    rw [chunkPeers] at hpeer
    rcases List.mem_cons.mp hpeer with rfl | hpeer
    · rfl
    · exact ih peer hpeer
  | case2 v hshort =>
    intro peer hpeer
    rw [chunkPeers] at hpeer
    · cases hpeer
    · exact hshort

/-- **What is accepted is the peers' own bytes.** -/
theorem visitBytes_eq_ok :
    visitBytes v = .ok peers ↔ v = peers.flatMap Peer.bytes ∧ ∀ peer ∈ peers, peer.id = none := by
  unfold visitBytes
  constructor
  · intro h
    split at h
    · cases h
    · next hlen =>
      obtain rfl := Except.ok.inj h
      exact ⟨(flatMap_chunkPeers (not_not.mp hlen)).symm, id_chunkPeers v⟩
  · intro h
    obtain ⟨rfl, hid⟩ := h
    have hlen : (peers.flatMap Peer.bytes).length % 6 = 0 := by
      rw [length_peerBytes]
      omega
    have hmap : (peers.map fun peer => { peer with id := none }) = peers := by
      refine (List.map_congr_left fun peer hpeer => ?_).trans (List.map_id' peers)
      rw [← hid peer hpeer]
    rw [if_neg (not_not.mpr hlen), chunkPeers_flatMap, hmap]

end Peers

end BitTorrent
