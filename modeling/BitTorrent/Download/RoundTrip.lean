import BitTorrent.Download.Framing

/-!
# The stream of messages

`encode` appends the frame of a message (`encode_eq`), and `decode` takes it off
again, whatever comes behind it (`decode_frame`). A part of a frame makes it
wait (`decode_part`). This makes `MessageCodec` a codec in the sense of
`StreamDecoder.Encodes`, and the round trip holds however the stream is cut.

That the chunks do not matter is proved once for every codec, in `Lib.Frames`: while
`decode` waits it leaves the buffer untouched, so what arrives in chunks is decoded
as it would be in one piece. The handshakes of `Download.Handshake` are a codec of
this kind, too.

The messages are those that fit a frame (`Framed`). The length of any other is cut
off, or panics, when it is written.
-/

namespace BitTorrent

namespace MessageCodec

section Stream

variable {p : Profile} {t : MessageType} {src rest tail : List UInt8} {msg : Message}

/-- A call that returns a message takes at least the length off the buffer. -/
theorem decode_consumes (h : decode p src = (.item msg, rest)) : rest.length < src.length := by
  have htook := decode_length h (by simp) (by simp)
  split at htook <;> omega

/-- The codec, as a decoder of a stream. -/
def codec (p : Profile) : StreamDecoder UInt8 Message DecodeStop where
  run := decode p
  consumes := decode_consumes

/-- The type byte of a message and what comes behind it. -/
def body : Message → List UInt8
  | .keepAlive => []
  | .choke => [MessageType.choke.toU8]
  | .unchoke => [MessageType.unchoke.toU8]
  | .interested => [MessageType.interested.toU8]
  | .notInterested => [MessageType.notInterested.toU8]
  | .have pieceIndex => MessageType.have.toU8 :: u32Bytes pieceIndex
  | .bitfield bitfield => MessageType.bitfield.toU8 :: bitfield
  | .request index begin length =>
    MessageType.request.toU8 :: (u32Bytes index ++ (u32Bytes begin ++ u32Bytes length))
  | .piece index begin block =>
    MessageType.piece.toU8 :: (u32Bytes index ++ (u32Bytes begin ++ block))
  | .cancel index begin length =>
    MessageType.cancel.toU8 :: (u32Bytes index ++ (u32Bytes begin ++ u32Bytes length))

/-- The frame of a message: its length, then its bytes. -/
def frame (msg : Message) : List UInt8 := u32Bytes (.ofNat (body msg).length) ++ body msg

/-- A framed message has a body of a `u32`'s length. -/
theorem body_lt (h : msg.Framed) : (body msg).length < 2 ^ 32 := by
  cases msg with
  | bitfield bytes => exact h
  | piece index begin block =>
    have : block.length + 9 < 2 ^ 32 := h
    simp only [body, List.length_cons, List.length_append, length_u32Bytes]
    omega
  | keepAlive | choke | unchoke | interested | notInterested | «have» | request | cancel =>
    simp [body]

/-- `encode` appends the frame. -/
theorem encode_eq (p : Profile) (h : msg.Framed) (dst : List UInt8) :
    encode p msg dst = some (dst ++ frame msg) := by
  cases msg with
  | keepAlive => simp [encode, frame, body, putU32]
  | bitfield bytes =>
    have hlen : bytes.length + 1 < 2 ^ 32 := h
    simp only [encode, asU32_of_lt (show bytes.length < 2 ^ 32 by omega), p.add_of_lt hlen,
      Option.bind_eq_bind, Option.bind_some, frame, body, putU32, putU8, List.length_cons,
      List.append_assoc, List.singleton_append]
  | piece index begin block =>
    have hlen : block.length + 9 < 2 ^ 32 := h
    simp only [encode, asU32_of_lt (show block.length < 2 ^ 32 by omega),
      p.add_of_lt (show 9 + block.length < 2 ^ 32 by omega), Option.bind_eq_bind, Option.bind_some,
      frame, body, putU32, putU8, List.length_cons, List.length_append, length_u32Bytes,
      List.append_assoc, List.singleton_append]
    rw [show 4 + (4 + block.length) + 1 = 9 + block.length by omega]
    rfl
  | choke | unchoke | interested | notInterested | «have» | request | cancel =>
    simp [encode, frame, body, putU32, putU8]

/-- The buffer starts with the length and the bytes of a frame. -/
theorem complete_of_frame {bs : List UInt8} (hn : bs.length < 2 ^ 32)
    (hsrc : src = u32Bytes (.ofNat bs.length) ++ (bs ++ tail)) :
    msgLen src = bs.length ∧ Complete src := by
  have hlen : msgLen src = bs.length := by
    rw [hsrc, msgLen_append (Nat.le_of_eq (length_u32Bytes _).symm)]
    unfold msgLen
    rw [List.take_of_length_le (Nat.le_of_eq (length_u32Bytes _)), u32OfBytes_u32Bytes,
      UInt32.toNat_ofNat_of_lt' hn]
  refine ⟨hlen, ?_, ?_⟩
  · rw [hsrc, List.length_append, length_u32Bytes]
    omega
  · rw [hlen, hsrc, List.length_append, List.length_append, length_u32Bytes]
    omega

/-- A frame whose bytes are those of a type and decode to a message. -/
theorem decode_of_body {payload : List UInt8} (hn : payload.length + 1 < 2 ^ 32)
    (hbody : decodeBody p (payload.length + 1) t (payload ++ tail) = some (msg, tail))
    (hsrc : src = u32Bytes (.ofNat (t.toU8 :: payload).length) ++ (t.toU8 :: payload ++ tail)) :
    decode p src = (.item msg, tail) := by
  obtain ⟨hlen, hc⟩ := complete_of_frame (show (t.toU8 :: payload).length < 2 ^ 32 from hn) hsrc
  have htype : msgType src = some t := by
    unfold msgType
    rw [hsrc]
    exact t.tryFrom_toU8
  have hdrop : src.drop 5 = payload ++ tail := by rw [hsrc]; rfl
  rw [decode_typed hc (by rw [hlen]; simp) htype, hdrop, hlen, List.length_cons, hbody]

/-- **One message.** `decode` takes the frame of a message off the buffer,
whatever comes behind it. -/
theorem decode_frame (p : Profile) (h : msg.Framed) (tail : List UInt8) :
    decode p (frame msg ++ tail) = (.item msg, tail) := by
  have hsrc : frame msg ++ tail = u32Bytes (.ofNat (body msg).length) ++ (body msg ++ tail) :=
    List.append_assoc ..
  have hn := body_lt h
  cases msg with
  | keepAlive =>
    obtain ⟨hlen, hc⟩ := complete_of_frame hn hsrc
    rw [decode_keepAlive hc hlen]
    rfl
  | choke => exact decode_of_body (t := .choke) hn rfl hsrc
  | unchoke => exact decode_of_body (t := .unchoke) hn rfl hsrc
  | interested => exact decode_of_body (t := .interested) hn rfl hsrc
  | notInterested => exact decode_of_body (t := .notInterested) hn rfl hsrc
  | «have» i =>
    refine decode_of_body (t := .have) hn ?_ hsrc
    simp only [decodeBody, getU32_u32Bytes, Option.bind_eq_bind, Option.bind_some]
  | bitfield bytes =>
    refine decode_of_body (t := .bitfield) hn ?_ hsrc
    have hzero := zeroed_sub p (Nat.le_add_left 1 bytes.length) hn
    have hcopy : copyToSlice (bytes ++ tail) (List.replicate (bytes.length + 1 - 1) 0) =
        some (bytes, tail) := by
      rw [copyToSlice_of_le (by simp), List.length_replicate, Nat.add_sub_cancel, List.take_left,
        List.drop_left]
    simp only [decodeBody, Option.bind_eq_bind, ← Option.bind_assoc, hzero]
    simp only [Option.bind_some, hcopy]
  | request i b l =>
    refine decode_of_body (t := .request) hn ?_ hsrc
    simp only [decodeBody, List.append_assoc, getU32_u32Bytes, Option.bind_eq_bind,
      Option.bind_some]
  | piece i b block =>
    refine decode_of_body (t := .piece) hn ?_ hsrc
    have hlen : (u32Bytes i ++ (u32Bytes b ++ block)).length + 1 = block.length + 9 := by
      simp only [List.length_append, length_u32Bytes]
      omega
    have hzero := zeroed_sub p (Nat.le_add_left 9 block.length) h
    have hcopy : copyToSlice (block ++ tail) (List.replicate (block.length + 9 - 9) 0) =
        some (block, tail) := by
      rw [copyToSlice_of_le (by simp), List.length_replicate, Nat.add_sub_cancel, List.take_left,
        List.drop_left]
    rw [hlen]
    simp only [decodeBody, Option.bind_eq_bind, ← Option.bind_assoc, hzero]
    simp only [Option.bind_some, List.append_assoc, getU32_u32Bytes, hcopy]
  | cancel i b l =>
    refine decode_of_body (t := .cancel) hn ?_ hsrc
    simp only [decodeBody, List.append_assoc, getU32_u32Bytes, Option.bind_eq_bind,
      Option.bind_some]

/-- A part of a frame makes `decode` wait. -/
theorem decode_part (p : Profile) (h : msg.Framed) (hpre : src <+: frame msg)
    (hne : src ≠ frame msg) : decode p src = (.more, src) := by
  refine decode_more fun hc => hne ?_
  obtain ⟨x, hx⟩ := hpre
  have hlen : (frame msg).length = 4 + (body msg).length := by
    unfold frame
    rw [List.length_append, length_u32Bytes]
  have hn : msgLen src = (body msg).length := by
    have hfull := (complete_of_frame (body_lt h) (show frame msg =
      u32Bytes (.ofNat (body msg).length) ++ (body msg ++ []) by rw [List.append_nil]; rfl)).1
    rw [← hfull, ← hx, msgLen_append hc.1]
  -- a complete frame of that length leaves nothing of it
  have hx' : x = [] := by
    have htotal := congrArg List.length hx
    rw [List.length_append, hlen] at htotal
    have := hc.2
    exact List.eq_nil_of_length_eq_zero (by omega)
  rw [← hx, hx', List.append_nil]

theorem codec_encodes (p : Profile) : (codec p).Encodes frame Message.Framed where
  nil := by rfl
  frame := fun h tail => decode_frame p h tail
  part := fun h hpre hne => decode_part p h hpre hne

/-- Messages that are encoded one after the other are their frames in a row. -/
theorem encode_all (p : Profile) {msgs : List Message} (h : ∀ msg ∈ msgs, msg.Framed) :
    ∀ dst, msgs.foldlM (fun dst msg => encode p msg dst) dst =
      some (dst ++ (msgs.map frame).flatten) := by
  induction msgs with
  | nil => intro dst; simp
  | cons msg msgs ih =>
    intro dst
    rw [List.foldlM_cons, encode_eq p (h msg (List.mem_cons_self ..)), Option.bind_eq_bind,
      Option.bind_some, ih fun m hm => h m (List.mem_cons_of_mem _ hm), List.map_cons,
      List.flatten_cons, List.append_assoc]

/-- A call that asks for more leaves the buffer as it is. -/
theorem decode_more_rest (h : decode p src = (.more, rest)) : rest = src := by
  by_cases hc : Complete src
  · exact absurd (congrArg Prod.fst h) (decode_ne_more hc)
  · rw [decode_more hc] at h
    exact (Prod.mk.inj h).2.symm

theorem codec_keeps (p : Profile) : (codec p).Keeps := fun _ _ => decode_more_rest

/-- A `Bitfield` comes out of a complete frame of that type. -/
theorem type_of_decode {bytes : List UInt8} (h : decode p src = (.item (.bitfield bytes), rest)) :
    Complete src ∧ msgLen src ≠ 0 ∧ msgType src = some .bitfield := by
  have hc : Complete src := by
    by_contra hc
    rw [decode_more hc] at h
    cases (Prod.mk.inj h).1
  have h0 : msgLen src ≠ 0 := fun h0 => by
    rw [decode_keepAlive hc h0] at h
    cases Verdict.item.inj (Prod.mk.inj h).1
  refine ⟨hc, h0, ?_⟩
  cases ht : msgType src with
  | none =>
    rw [decode_invalid hc h0 ht] at h
    cases (Prod.mk.inj h).1
  | some t =>
    rw [decode_typed hc h0 ht] at h
    cases hbody : decodeBody p (msgLen src) t (src.drop 5) with
    | none =>
      rw [hbody] at h
      cases (Prod.mk.inj h).1
    | some mr =>
      rw [hbody] at h
      obtain ⟨hmsg, -⟩ := Prod.mk.inj h
      have hmr : mr = (.bitfield bytes, mr.2) := Prod.ext (Verdict.item.inj hmsg) rfl
      rw [hmr] at hbody
      rw [type_of_bitfield hbody]

/-- The front of the buffer is the frame of the payload that is declared. -/
theorem eq_frame_of_type (hc : Complete src) (h0 : msgLen src ≠ 0)
    (ht : msgType src = some .bitfield) :
    ∃ bytes, (Message.bitfield bytes).Framed ∧
      src = frame (.bitfield bytes) ++ src.drop (4 + msgLen src) := by
  obtain ⟨n, hn⟩ : ∃ n, msgLen src = n + 1 := ⟨msgLen src - 1, by omega⟩
  have hlen := hc.2
  have hlt := msgLen_lt src
  obtain ⟨byte, hbyte, -⟩ := exists_type hc h0
  have htype : byte = 5 := by
    unfold msgType at ht
    rw [hbyte, Option.bind_some] at ht
    unfold MessageType.tryFrom at ht
    split at ht <;> first | rfl | cases ht
  have hpayload : ((src.drop 5).take n).length = n := by
    rw [List.length_take, List.length_drop]
    omega
  have hframed : (Message.bitfield ((src.drop 5).take n)).Framed := by
    unfold Message.Framed
    omega
  have hfour : u32Bytes (.ofNat (n + 1)) = src.take 4 := by
    rw [← hn]
    unfold msgLen
    rw [UInt32.ofNat_toNat, u32Bytes_u32OfBytes (List.length_take_of_le hc.1)]
  refine ⟨_, hframed, ?_⟩
  have h4 : src.drop 4 = 5 :: src.drop 5 := by
    have hget := (List.getElem?_eq_some_iff.mp hbyte).2
    rw [List.drop_eq_getElem_cons (by omega), hget, htype]
  unfold frame
  rw [MessageCodec.body, List.length_cons, hpayload, hfour, List.append_assoc, List.cons_append,
    hn, show 4 + (n + 1) = 5 + n by omega, ← List.drop_drop, List.take_append_drop]
  show src = src.take 4 ++ 5 :: src.drop 5
  rw [← h4, List.take_append_drop]

/-- A `Bitfield` that is decoded is a frame: it takes what it declares. -/
theorem decode_bitfield {bytes : List UInt8} (h : decode p src = (.item (.bitfield bytes), rest)) :
    (Message.bitfield bytes).Framed ∧ src = frame (.bitfield bytes) ++ rest := by
  obtain ⟨hc, h0, ht⟩ := type_of_decode h
  obtain ⟨payload, hframed, hsrc⟩ := eq_frame_of_type hc h0 ht
  have hdec := decode_frame p hframed (src.drop (4 + msgLen src))
  rw [← hsrc, h] at hdec
  obtain ⟨hmsg, rfl⟩ := Prod.mk.inj hdec
  rw [Message.bitfield.inj (Verdict.item.inj hmsg)]
  exact ⟨hframed, hsrc⟩

/-- **The round trip.** The messages are encoded into one stream. However it is
cut into chunks, decoding after each chunk until `decode` asks for more yields
these messages in order and no error, and leaves nothing. A call that asks for
more takes nothing of what has arrived. -/
theorem codec_round_trip (p : Profile) (msgs : List Message) (h : ∀ msg ∈ msgs, msg.Framed) :
    ∃ stream, msgs.foldlM (fun dst msg => encode p msg dst) [] = some stream ∧
      (∀ chunks, chunks.flatten = stream → (codec p).receive [] chunks = ⟨msgs, none, []⟩) ∧
      ∀ buf rest, decode p buf = (.more, rest) → rest = buf :=
  ⟨_, encode_all p h [], fun _ heq => StreamDecoder.receive_frames (codec_encodes p) h heq,
    fun _ _ => decode_more_rest⟩

theorem codec_round_trip_have :
    ∃ stream, [Message.have 2, .keepAlive].foldlM (fun dst msg => encode .dev msg dst) [] =
        some stream ∧
      (∀ chunks, chunks.flatten = stream →
        (codec .dev).receive [] chunks = ⟨[.have 2, .keepAlive], none, []⟩) ∧
      ∀ buf rest, decode .dev buf = (.more, rest) → rest = buf :=
  codec_round_trip .dev [.have 2, .keepAlive] (by decide)

end Stream

end MessageCodec

end BitTorrent
