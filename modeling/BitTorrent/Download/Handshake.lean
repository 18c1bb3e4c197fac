import BitTorrent.Bencode.MetaInfo
import BitTorrent.Download.PeerMsg

/-!
# The handshake (`download/handshake.rs`)

A peer's first 68 bytes. `decode` reads the five fields one after the other, and
accepts any bytes (`decode_eq_item`): a handshake for this torrent is one that
is `For` its hash.

`encode` writes four of the fields, and zeros for the reserved bytes
(`encode_eq`). So a handshake comes back as it was, or 68 bytes do, exactly when
the reserved bytes are zero (`roundTrip_iff`).

Mirroring notes:

* the arrays are vectors, so each field has its length. `copy_to_slice` fills the
  array of the default handshake, as in the source (`copyToArray`);
* `reserve` is left out;
* the reads panic past the end of the buffer. `decode` asks for 68 bytes first, so
  it does not panic, and it returns no error (`decode_ne_stop`).
-/

namespace BitTorrent

/-- `Handshake`, with its arrays as vectors. -/
structure Handshake where
  length : UInt8
  protocol : Vector UInt8 19
  reserved : Vector UInt8 8
  infoHash : Digest
  peerId : Vector UInt8 20
  deriving DecidableEq, Repr

instance : Inhabited Handshake where
  default :=
    { length := 0
      protocol := Vector.replicate 19 0
      reserved := Vector.replicate 8 0
      infoHash := Vector.replicate 20 0
      peerId := Vector.replicate 20 0 }

/-- `b"BitTorrent protocol"` -/
def protocolString : Vector UInt8 19 :=
  #v[66, 105, 116, 84, 111, 114, 114, 101, 110, 116, 32, 112, 114, 111, 116, 111, 99, 111, 108]

/-- `Handshake::new`. -/
def Handshake.new (infoHash : Digest) (peerId : Vector UInt8 20) : Handshake :=
  { length := 19
    protocol := protocolString
    reserved := Vector.replicate 8 0
    infoHash
    peerId }

/-- The 68 bytes of a handshake. -/
def Handshake.bytes (h : Handshake) : List UInt8 :=
  h.length :: (h.protocol.toList ++ (h.reserved.toList ++ (h.infoHash.toList ++ h.peerId.toList)))

/-- A handshake for the torrent with this hash. -/
def Handshake.For (infoHash : Digest) (h : Handshake) : Prop :=
  h.length = 19 ∧ h.protocol = protocolString ∧ h.infoHash = infoHash

instance (infoHash : Digest) (h : Handshake) : Decidable (h.For infoHash) :=
  inferInstanceAs (Decidable (_ ∧ _))

namespace HandshakeCodec

/-- `HANDSHAKE_SIZE`. -/
def handshakeSize : Nat := 68

/-- The reads of the fields; `none` is a panic. -/
def fields (buf : List UInt8) : Option (Handshake × List UInt8) := do
  let handshake : Handshake := default
  let (length, buf) ← getU8 buf
  let (protocol, buf) ← copyToArray buf handshake.protocol
  let (reserved, buf) ← copyToArray buf handshake.reserved
  let (infoHash, buf) ← copyToArray buf handshake.infoHash
  let (peerId, buf) ← copyToArray buf handshake.peerId
  some ({ length, protocol, reserved, infoHash, peerId }, buf)

/-- `HandshakeCodec::decode`: it waits for the 68 bytes, and takes any. -/
def decode (buf : List UInt8) : Verdict Handshake DecodeStop × List UInt8 :=
  if buf.length < handshakeSize then (.more, buf)
  else
    match fields buf with
    | none => (.stop .panicked, buf)
    | some (handshake, buf) => (.item handshake, buf)

/-- `HandshakeCodec::encode`. It puts eight zeros in place of the reserved bytes. -/
def encode (item : Handshake) (dst : List UInt8) : List UInt8 :=
  let dst := putU8 dst item.length
  let dst := dst ++ item.protocol.toList
  let dst := dst ++ List.replicate 8 0
  let dst := dst ++ item.infoHash.toList
  dst ++ item.peerId.toList

section Decode

variable {h : Handshake} {buf rest : List UInt8}

theorem length_bytes (h : Handshake) : h.bytes.length = 68 := by
  simp [Handshake.bytes]

/-- The reads take the fields in their order, and nothing else. -/
theorem fields_eq_some : fields buf = some (h, rest) ↔ buf = h.bytes ++ rest := by
  simp only [fields, Option.bind_eq_bind, Option.bind_eq_some_iff, Prod.exists, Handshake.bytes]
  constructor
  · intro hread
    obtain ⟨length, buf₁, h₁, protocol, buf₂, h₂, reserved, buf₃, h₃, infoHash, buf₄, h₄, peerId,
      buf₅, h₅, heq⟩ := hread
    obtain ⟨rfl, rfl⟩ := Prod.mk.inj (Option.some.inj heq)
    cases buf with
    | nil => cases h₁
    | cons b buf =>
      obtain ⟨rfl, rfl⟩ := Prod.mk.inj (Option.some.inj h₁)
      rw [copyToArray_eq_some.mp h₂, copyToArray_eq_some.mp h₃, copyToArray_eq_some.mp h₄,
        copyToArray_eq_some.mp h₅]
      simp only [List.cons_append, List.append_assoc]
  · intro hbuf
    simp only [List.cons_append, List.append_assoc] at hbuf
    subst hbuf
    exact ⟨_, _, rfl, _, _, copyToArray_eq_some.mpr rfl, _, _, copyToArray_eq_some.mpr rfl, _, _,
      copyToArray_eq_some.mpr rfl, _, _, copyToArray_eq_some.mpr rfl, rfl⟩

/-- With 68 bytes in the buffer the fields are read. -/
theorem exists_fields (hlen : 68 ≤ buf.length) : ∃ h rest, fields buf = some (h, rest) := by
  cases buf with
  | nil => cases hlen
  | cons b buf =>
    rw [List.length_cons] at hlen
    obtain ⟨protocol, h₁⟩ := exists_array (show 19 ≤ buf.length by omega)
    generalize buf.drop 19 = buf₁ at h₁
    subst h₁
    rw [List.length_append, Vector.length_toList] at hlen
    obtain ⟨reserved, h₂⟩ := exists_array (show 8 ≤ buf₁.length by omega)
    generalize buf₁.drop 8 = buf₂ at h₂
    subst h₂
    rw [List.length_append, Vector.length_toList] at hlen
    obtain ⟨infoHash, h₃⟩ := exists_array (show 20 ≤ buf₂.length by omega)
    generalize buf₂.drop 20 = buf₃ at h₃
    subst h₃
    rw [List.length_append, Vector.length_toList] at hlen
    obtain ⟨peerId, h₄⟩ := exists_array (show 20 ≤ buf₃.length by omega)
    refine ⟨⟨b, protocol, reserved, infoHash, peerId⟩, buf₃.drop 20, fields_eq_some.mpr ?_⟩
    simp only [Handshake.bytes, List.cons_append, List.append_assoc]
    rw [← h₄]

/-- A handshake is decoded when its bytes stand at the front. -/
theorem decode_eq_item : decode buf = (.item h, rest) ↔ buf = h.bytes ++ rest := by
  rw [← fields_eq_some]
  unfold decode
  constructor
  · intro hdec
    split at hdec
    · cases (Prod.mk.inj hdec).1
    · split at hdec
      · cases (Prod.mk.inj hdec).1
      next hread =>
        obtain ⟨hh, rfl⟩ := Prod.mk.inj hdec
        rw [hread, Verdict.item.inj hh]
  · intro hread
    have hbuf := fields_eq_some.mp hread
    rw [if_neg, hread]
    rw [hbuf, List.length_append, length_bytes, handshakeSize]
    omega

/-- `decode` asks for more, and leaves the buffer alone, until 68 bytes are there. -/
theorem decode_eq_more : decode buf = (.more, rest) ↔ buf.length < 68 ∧ rest = buf := by
  unfold decode
  constructor
  · intro hdec
    split at hdec
    next hlt => exact ⟨hlt, (Prod.mk.inj hdec).2.symm⟩
    next =>
      split at hdec
      · cases (Prod.mk.inj hdec).1
      · cases (Prod.mk.inj hdec).1
  · intro ⟨hlt, hrest⟩
    rw [if_pos (show buf.length < handshakeSize from hlt), hrest]

/-- The decoder neither fails nor panics. -/
theorem decode_ne_stop (e : DecodeStop) : decode buf ≠ (.stop e, rest) := by
  intro hdec
  unfold decode at hdec
  split at hdec
  · cases (Prod.mk.inj hdec).1
  next hlen =>
    obtain ⟨h, rest', hread⟩ := exists_fields (Nat.not_lt.mp hlen)
    rw [hread] at hdec
    cases (Prod.mk.inj hdec).1

/-- The codec, as a decoder of a stream. -/
def codec : StreamDecoder UInt8 Handshake DecodeStop where
  run := decode
  consumes := fun hdec => by
    rw [decode_eq_item.mp hdec, List.length_append, length_bytes]
    omega

theorem codec_keeps : codec.Keeps := fun _ _ hmore => (decode_eq_more.mp hmore).2

/-- Whatever the fields are, their 68 bytes decode to them. -/
theorem codec_encodes : codec.Encodes Handshake.bytes fun _ => True where
  nil := rfl
  frame := fun _ _ => decode_eq_item.mpr rfl
  part := by
    intro h buf _ hpre hne
    obtain ⟨x, hx⟩ := hpre
    refine decode_eq_more.mpr ⟨?_, rfl⟩
    have hlen := congrArg List.length hx
    rw [List.length_append, length_bytes] at hlen
    have hx0 : x ≠ [] := fun h0 => hne (by rw [← hx, h0, List.append_nil])
    have := List.length_pos_iff.mpr hx0
    omega

end Decode

/-! ## There and back -/

/-- What `encode` writes of a handshake. -/
def written (h : Handshake) : Handshake := { h with reserved := Vector.replicate 8 0 }

/-- The encoding of `h` arrives in `chunks`, with `suffix` behind it: `decode` takes
nothing before there are 68 bytes, and then it returns `h` and leaves `suffix`. -/
structure RoundTrip (h : Handshake) (suffix : List UInt8) (chunks : List (List UInt8)) : Prop where
  waits : ∀ early late, chunks = early ++ late → early.flatten.length < 68 →
    decode early.flatten = (.more, early.flatten)
  returns : ∃ rest left, codec.next [] chunks = (.item h, rest, left) ∧
    rest ++ left.flatten = suffix

section RoundTrip

variable {h : Handshake} {b suffix : List UInt8} {chunks : List (List UInt8)}

/-- What is encoded is the handshake without its reserved bytes. -/
theorem encode_eq (h : Handshake) (dst : List UInt8) : encode h dst = dst ++ (written h).bytes := by
  have hzeros : (Vector.replicate 8 (0 : UInt8)).toList = List.replicate 8 0 :=
    Vector.toList_replicate
  unfold encode putU8 Handshake.bytes written
  rw [hzeros]
  simp only [List.append_assoc, List.cons_append, List.nil_append]

/-- Nothing is lost when the reserved bytes are zero. -/
theorem written_eq_self : written h = h ↔ h.reserved = Vector.replicate 8 0 := by
  constructor
  · intro heq
    rw [← heq]
    rfl
  · intro hzeros
    unfold written
    rw [← hzeros]

/-- Whatever the handshake is, what was written is read. -/
theorem roundTrip_written (heq : chunks.flatten = encode h [] ++ suffix) :
    RoundTrip (written h) suffix chunks where
  waits := fun _ _ _ hlt => decode_eq_more.mpr ⟨hlt, rfl⟩
  returns := by
    rw [encode_eq] at heq
    exact StreamDecoder.next_frame codec_encodes trivial heq

/-- The reserved bytes follow the length and the protocol. -/
theorem reserved_of_bytes (h : Handshake) : (h.bytes.drop 20).take 8 = h.reserved.toList := by
  have hdrop : h.bytes.drop 20 = h.reserved.toList ++ (h.infoHash.toList ++ h.peerId.toList) := by
    show (h.protocol.toList ++ _).drop 19 = _
    exact List.drop_left' (Vector.length_toList)
  rw [hdrop]
  exact List.take_left' (Vector.length_toList)

/-- 68 bytes are the bytes of one handshake. -/
theorem exists_bytes (hb : b.length = 68) : ∃ h : Handshake, b = h.bytes := by
  obtain ⟨h, rest, hread⟩ := exists_fields (Nat.le_of_eq hb.symm)
  have hbytes := fields_eq_some.mp hread
  have hrest : rest = [] := by
    rw [hbytes, List.length_append, length_bytes] at hb
    exact List.length_eq_zero_iff.mp (by omega)
  rw [hrest, List.append_nil] at hbytes
  exact ⟨h, hbytes⟩

theorem bytes_inj {h' : Handshake} (heq : h.bytes = h'.bytes) : h = h' := by
  have hdec : decode h.bytes = (.item h', []) :=
    decode_eq_item.mpr (by rw [heq, List.append_nil])
  rw [decode_eq_item.mpr (List.append_nil h.bytes).symm] at hdec
  exact Verdict.item.inj (Prod.mk.inj hdec).1

/-- Encoding what was decoded gives the same bytes if the reserved ones are zero. -/
theorem encode_decode_iff (hb : b.length = 68) :
    (∃ h, decode b = (.item h, []) ∧ encode h [] = b) ↔
      (b.drop 20).take 8 = List.replicate 8 0 := by
  obtain ⟨h, rfl⟩ := exists_bytes hb
  have hdec : decode h.bytes = (.item h, []) := decode_eq_item.mpr (List.append_nil _).symm
  have hzeros : h.reserved.toList = List.replicate 8 0 ↔ h.reserved = Vector.replicate 8 0 := by
    rw [← Vector.toList_inj, Vector.toList_replicate]
  rw [reserved_of_bytes, hzeros, ← written_eq_self]
  constructor
  · intro hback
    obtain ⟨h', hdec', henc⟩ := hback
    rw [hdec] at hdec'
    obtain rfl := Verdict.item.inj (Prod.mk.inj hdec').1
    rw [encode_eq, List.nil_append] at henc
    exact bytes_inj henc
  · intro hwritten
    refine ⟨h, hdec, ?_⟩
    rw [encode_eq, List.nil_append, hwritten]

/-- A handshake comes back as it was, however the stream is cut, exactly when its
reserved bytes are zero; so do 68 bytes. -/
theorem roundTrip_iff (h : Handshake) (b : List UInt8) (hb : b.length = 68) :
    ((∀ suffix chunks, chunks.flatten = encode h [] ++ suffix → RoundTrip h suffix chunks) ↔
        h.reserved = Vector.replicate 8 0) ∧
      ((∃ h, decode b = (.item h, []) ∧ encode h [] = b) ↔
        (b.drop 20).take 8 = List.replicate 8 0) := by
  refine ⟨?_, encode_decode_iff hb⟩
  rw [← written_eq_self]
  constructor
  · intro hall
    -- all in one chunk: what is read is also what was written
    have hflat : [encode h []].flatten = encode h [] ++ [] := by
      rw [List.flatten_singleton, List.append_nil]
    obtain ⟨rest, left, hnext, -⟩ := (hall [] [encode h []] hflat).returns
    obtain ⟨rest', left', hnext', -⟩ := (roundTrip_written hflat).returns
    rw [hnext] at hnext'
    exact (Verdict.item.inj (Prod.mk.inj hnext').1).symm
  · intro hwritten suffix chunks heq
    have htrip := roundTrip_written heq
    rw [hwritten] at htrip
    exact htrip

end RoundTrip

/-- A handshake with a bit of an extension set. -/
def extended : Handshake :=
  { Handshake.new (Vector.replicate 20 1) (Vector.replicate 20 2) with
    reserved := #v[0, 0, 0, 0, 0, 16, 0, 0] }

theorem roundTrip_iff_new :
    let h := Handshake.new (Vector.replicate 20 1) (Vector.replicate 20 2)
    (∀ suffix chunks, chunks.flatten = encode h [] ++ suffix → RoundTrip h suffix chunks) ∧
      ∃ h', decode h.bytes = (.item h', []) ∧ encode h' [] = h.bytes := by
  intro h
  obtain ⟨htrip, hback⟩ := roundTrip_iff h h.bytes (length_bytes h)
  exact ⟨htrip.mpr rfl, hback.mpr (by decide +kernel)⟩

/-- The bit is lost on the way out, whoever wrote it. -/
theorem reserved_lost :
    ¬ RoundTrip extended [] [encode extended []] ∧
      decode extended.bytes = (.item extended, []) ∧ encode extended [] ≠ extended.bytes := by
  refine ⟨?_, by decide +kernel, by decide +kernel⟩
  intro htrip
  obtain ⟨rest, left, hnext, -⟩ := htrip.returns
  have hlost : (codec.next [] [encode extended []]).1 = .item (written extended) := by
    decide +kernel
  rw [hnext] at hlost
  exact absurd (Verdict.item.inj hlost) (by decide)

end HandshakeCodec

end BitTorrent
