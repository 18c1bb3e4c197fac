import BitTorrent.Download.PeerMsg

/-!
# What `MessageCodec::decode` reads

`decode` compares the length of the buffer with the declared length of the frame
once. After that every type reads what it needs, whatever length was declared:
`taken` says how much, and `Room` what has to be there for it. A read passes the
end of the buffer, and panics, exactly when the frame is shorter than its type
needs and nothing behind it makes up for that (`decode_returns_iff`).

The two subtractions in it, `msg_len - 1` and `msg_len - 9`, are of a declared length
that nothing has compared with the type. The first cannot fail: the type byte is
among the bytes of the frame. The second fails in a `Piece` of fewer than nine, in a
build with overflow checks by the subtraction, and without them by the vector it is
the length of.

What `decode` does is split by what the buffer begins with (`msgLen`, `msgType`):
one lemma for a frame that is not complete, one for each kind of frame that is.
-/

namespace BitTorrent

namespace MessageCodec

/-- The declared length of the frame. -/
def msgLen (src : List UInt8) : Nat := (u32OfBytes (src.take 4)).toNat

/-- The type of the frame, unless it is none of the known ones. -/
def msgType (src : List UInt8) : Option MessageType := (src[4]?).bind MessageType.tryFrom

/-- The frame has arrived in full. -/
def Complete (src : List UInt8) : Prop := 4 ≤ src.length ∧ 4 + msgLen src ≤ src.length

instance (src : List UInt8) : Decidable (Complete src) := inferInstanceAs (Decidable (_ ∧ _))

/-- The bytes a type reads behind the type byte, in a frame of `n` bytes. -/
def taken (n : Nat) : MessageType → Nat
  | .choke | .unchoke | .interested | .notInterested => 0
  | .have => 4
  | .request | .cancel => 12
  | .bitfield | .piece => n - 1

section Decode

variable {p : Profile} {n : Nat} {t : MessageType} {src rest tail : List UInt8} {msg : Message}

theorem msgLen_lt (src : List UInt8) : msgLen src < 2 ^ 32 := UInt32.toNat_lt _

/-! ## The cases of a call -/

/-- A frame that has not arrived in full is left alone. -/
theorem decode_more (h : ¬ Complete src) : decode p src = (.more, src) := by
  unfold decode
  by_cases h4 : src.length < 4
  · exact if_pos h4
  · rw [if_neg h4]
    exact if_neg fun hle => h ⟨by omega, hle⟩

theorem decode_complete (h : Complete src) : decode p src =
    if msgLen src = 0 then (.item .keepAlive, src.drop 4)
    else
      match getU8 (src.drop 4) with
      | none => (.stop .panicked, src.drop 4)
      | some (byte, src') =>
        match MessageType.tryFrom byte with
        | none => (.stop .invalidData, src')
        | some msgType =>
          match decodeBody p (msgLen src) msgType src' with
          | none => (.stop .panicked, src')
          | some (msg, src') => (.item msg, src') := by
  unfold decode
  rw [if_neg (Nat.not_lt.mpr h.1)]
  exact if_pos h.2

theorem decode_keepAlive (h : Complete src) (h0 : msgLen src = 0) :
    decode p src = (.item .keepAlive, src.drop 4) := by
  rw [decode_complete h, if_pos h0]

/-- A frame that is not a keep-alive has a type byte. -/
theorem exists_type (h : Complete src) (h0 : msgLen src ≠ 0) :
    ∃ byte, src[4]? = some byte ∧ getU8 (src.drop 4) = some (byte, src.drop 5) := by
  have hlt : 4 < src.length := by have := h.2; omega
  exact ⟨src[4], List.getElem?_eq_getElem hlt, by rw [List.drop_eq_getElem_cons hlt]; rfl⟩

/-- A type byte that is none of the known ones. -/
theorem decode_invalid (h : Complete src) (h0 : msgLen src ≠ 0) (ht : msgType src = none) :
    decode p src = (.stop .invalidData, src.drop 5) := by
  obtain ⟨byte, hbyte, hget⟩ := exists_type h h0
  unfold msgType at ht
  rw [hbyte, Option.bind_some] at ht
  rw [decode_complete h, if_neg h0, hget]
  dsimp only
  rw [ht]

/-- A known type byte: the rest is read as that type. -/
theorem decode_typed (h : Complete src) (h0 : msgLen src ≠ 0) (ht : msgType src = some t) :
    decode p src = match decodeBody p (msgLen src) t (src.drop 5) with
      | none => (.stop .panicked, src.drop 5)
      | some (msg, rest) => (.item msg, rest) := by
  obtain ⟨byte, hbyte, hget⟩ := exists_type h h0
  unfold msgType at ht
  rw [hbyte, Option.bind_some] at ht
  rw [decode_complete h, if_neg h0, hget]
  dsimp only
  rw [ht]

/-! ## What a type reads -/

/-- What stands behind the bytes a type reads is left. -/
theorem decodeBody_append (h : decodeBody p n t src = some (msg, rest)) (tail : List UInt8) :
    decodeBody p n t (src ++ tail) = some (msg, rest ++ tail) := by
  cases t with
  | choke | unchoke | interested | notInterested =>
    obtain ⟨rfl, rfl⟩ := Prod.mk.inj (Option.some.inj h)
    rfl
  | «have» =>
    simp only [decodeBody, Option.bind_eq_bind, Option.bind_eq_some_iff] at h ⊢
    obtain ⟨⟨i, src₁⟩, hi, heq⟩ := h
    obtain ⟨rfl, rfl⟩ := Prod.mk.inj (Option.some.inj heq)
    exact ⟨_, getU32_append hi tail, rfl⟩
  | bitfield =>
    simp only [decodeBody, Option.bind_eq_bind, Option.bind_eq_some_iff] at h ⊢
    obtain ⟨m, hm, z, hz, ⟨bs, src₁⟩, hbs, heq⟩ := h
    obtain ⟨rfl, rfl⟩ := Prod.mk.inj (Option.some.inj heq)
    exact ⟨m, hm, z, hz, _, copyToSlice_append hbs tail, rfl⟩
  | request | cancel =>
    simp only [decodeBody, Option.bind_eq_bind, Option.bind_eq_some_iff] at h ⊢
    obtain ⟨⟨i, src₁⟩, hi, ⟨b, src₂⟩, hb, ⟨l, src₃⟩, hl, heq⟩ := h
    obtain ⟨rfl, rfl⟩ := Prod.mk.inj (Option.some.inj heq)
    exact ⟨_, getU32_append hi tail, _, getU32_append hb tail, _, getU32_append hl tail, rfl⟩
  | piece =>
    simp only [decodeBody, Option.bind_eq_bind, Option.bind_eq_some_iff] at h ⊢
    obtain ⟨m, hm, z, hz, ⟨i, src₁⟩, hi, ⟨b, src₂⟩, hb, ⟨bs, src₃⟩, hbs, heq⟩ := h
    obtain ⟨rfl, rfl⟩ := Prod.mk.inj (Option.some.inj heq)
    exact ⟨m, hm, z, hz, _, getU32_append hi tail, _, getU32_append hb tail, _,
      copyToSlice_append hbs tail, rfl⟩

/-- The subtraction and the allocation of a length that is large enough. -/
theorem zeroed_sub (p : Profile) {k : Nat} (hk : k ≤ n) (hn : n < 2 ^ 32) :
    (p.sub 64 n k).bind zeroed = some (List.replicate (n - k) 0) := by
  rw [p.sub_of_le hk, Option.bind_some, zeroed_of_lt (by omega)]

/-- A difference that wraps is too large to allocate. -/
theorem zeroed_sub_none (p : Profile) {k : Nat} (hk : n < k) (hle : k < 2 ^ 63) :
    (p.sub 64 n k).bind zeroed = none := by
  cases p with
  | dev =>
    unfold Profile.sub
    rw [if_neg (Nat.not_le.mpr hk)]
    rfl
  | release =>
    unfold Profile.sub
    rw [if_neg (Nat.not_le.mpr hk), Option.bind_some]
    exact if_neg (by omega)

/-- A type reads its own number of bytes. -/
theorem decodeBody_length (hn : n < 2 ^ 32) (h : decodeBody p n t src = some (msg, rest)) :
    rest.length + taken n t = src.length := by
  cases t with
  | choke | unchoke | interested | notInterested =>
    obtain ⟨-, rfl⟩ := Prod.mk.inj (Option.some.inj h)
    rfl
  | «have» =>
    simp only [decodeBody, Option.bind_eq_bind, Option.bind_eq_some_iff] at h
    obtain ⟨⟨i, src₁⟩, hi, heq⟩ := h
    obtain ⟨-, rfl⟩ := Prod.mk.inj (Option.some.inj heq)
    exact getU32_length hi
  | bitfield =>
    simp only [decodeBody, Option.bind_eq_bind, Option.bind_eq_some_iff] at h
    obtain ⟨m, hm, z, hz, ⟨bs, src₁⟩, hbs, heq⟩ := h
    obtain ⟨-, rfl⟩ := Prod.mk.inj (Option.some.inj heq)
    have hlen := copyToSlice_length hbs
    -- `length - 1` underflows for an empty body
    by_cases h1 : 1 ≤ n
    · have hzero := zeroed_sub p h1 hn
      rw [hm, Option.bind_some, hz] at hzero
      rw [Option.some.inj hzero, List.length_replicate] at hlen
      exact hlen
    · have hzero := zeroed_sub_none p (Nat.lt_of_not_le h1) (by omega)
      rw [hm, Option.bind_some, hz] at hzero
      cases hzero
  | request | cancel =>
    simp only [decodeBody, Option.bind_eq_bind, Option.bind_eq_some_iff] at h
    obtain ⟨⟨i, src₁⟩, hi, ⟨b, src₂⟩, hb, ⟨l, src₃⟩, hl, heq⟩ := h
    obtain ⟨-, rfl⟩ := Prod.mk.inj (Option.some.inj heq)
    have h1 := getU32_length hi
    have h2 := getU32_length hb
    have h3 := getU32_length hl
    dsimp only [taken] at h1 h2 h3 ⊢
    omega
  | piece =>
    simp only [decodeBody, Option.bind_eq_bind, Option.bind_eq_some_iff] at h
    obtain ⟨m, hm, z, hz, ⟨i, src₁⟩, hi, ⟨b, src₂⟩, hb, ⟨bs, src₃⟩, hbs, heq⟩ := h
    obtain ⟨-, rfl⟩ := Prod.mk.inj (Option.some.inj heq)
    have h1 := getU32_length hi
    have h2 := getU32_length hb
    have h3 := copyToSlice_length hbs
    -- the same for `length - 9`
    by_cases h9 : 9 ≤ n
    · have hzero := zeroed_sub p h9 hn
      rw [hm, Option.bind_some, hz] at hzero
      rw [Option.some.inj hzero, List.length_replicate] at h3
      dsimp only [taken] at h1 h2 h3 ⊢
      omega
    · have hzero := zeroed_sub_none p (Nat.lt_of_not_le h9) (by omega)
      rw [hm, Option.bind_some, hz] at hzero
      cases hzero

/-- Only the type `Bitfield` decodes to a bitfield. -/
theorem type_of_bitfield {bytes : List UInt8}
    (h : decodeBody p n t src = some (.bitfield bytes, rest)) : t = .bitfield := by
  cases t with
  | bitfield => rfl
  | choke | unchoke | interested | notInterested => cases (Prod.mk.inj (Option.some.inj h)).1
  | «have» =>
    simp only [decodeBody, Option.bind_eq_bind, Option.bind_eq_some_iff] at h
    obtain ⟨_, -, heq⟩ := h
    cases (Prod.mk.inj (Option.some.inj heq)).1
  | request | cancel =>
    simp only [decodeBody, Option.bind_eq_bind, Option.bind_eq_some_iff] at h
    obtain ⟨_, -, _, -, _, -, heq⟩ := h
    cases (Prod.mk.inj (Option.some.inj heq)).1
  | piece =>
    simp only [decodeBody, Option.bind_eq_bind, Option.bind_eq_some_iff] at h
    obtain ⟨_, -, _, -, _, -, _, -, _, -, heq⟩ := h
    cases (Prod.mk.inj (Option.some.inj heq)).1

/-- The `len` bytes behind the type byte are enough for a frame of `n` bytes. -/
def Room (n len : Nat) : MessageType → Prop
  | .choke | .unchoke | .interested | .notInterested => True
  | .have => 4 ≤ len
  | .bitfield => 1 ≤ n ∧ n - 1 ≤ len
  | .request | .cancel => 12 ≤ len
  | .piece => 9 ≤ n ∧ n - 1 ≤ len

/-- Where a body was read there was room for it. -/
theorem room_of_decodeBody (hn : n < 2 ^ 32) (h : decodeBody p n t src = some (msg, rest)) :
    Room n src.length t := by
  have hlen := decodeBody_length hn h
  cases t with
  | choke | unchoke | interested | notInterested => exact trivial
  | «have» | request | cancel =>
    dsimp only [taken, Room] at hlen ⊢
    omega
  | bitfield =>
    dsimp only [taken, Room] at hlen ⊢
    refine ⟨?_, by omega⟩
    by_contra hlt
    have hzero := zeroed_sub_none p (Nat.lt_of_not_le hlt) (by omega)
    simp only [decodeBody, Option.bind_eq_bind, ← Option.bind_assoc, hzero, Option.bind_none] at h
    cases h
  | piece =>
    dsimp only [taken, Room] at hlen ⊢
    refine ⟨?_, by omega⟩
    by_contra hlt
    have hzero := zeroed_sub_none p (Nat.lt_of_not_le hlt) (by omega)
    simp only [decodeBody, Option.bind_eq_bind, ← Option.bind_assoc, hzero, Option.bind_none] at h
    cases h

/-- With room enough the four bytes of a word are there, and the rest is four shorter. -/
theorem exists_getU32 (h : 4 ≤ src.length) : ∃ x rest, getU32 src = some (x, rest) :=
  ⟨_, _, getU32_of_le h⟩

/-- Where there is room, a body is read without a panic. -/
theorem decodeBody_of_room (p : Profile) (hn : n < 2 ^ 32) (h : Room n src.length t) :
    (decodeBody p n t src).isSome = true := by
  cases t with
  | choke | unchoke | interested | notInterested => rfl
  | «have» =>
    obtain ⟨i, src₁, hi⟩ := exists_getU32 h
    simp only [decodeBody, hi, Option.bind_eq_bind, Option.bind_some, Option.isSome_some]
  | bitfield =>
    have hzero := zeroed_sub p h.1 hn
    have hcopy : (List.replicate (n - 1) (0 : UInt8)).length ≤ src.length := by
      rw [List.length_replicate]
      exact h.2
    simp only [decodeBody, Option.bind_eq_bind, ← Option.bind_assoc, hzero]
    simp only [Option.bind_some, copyToSlice_of_le hcopy, Option.isSome_some]
  | request | cancel =>
    dsimp only [Room] at h
    obtain ⟨i, src₁, hi⟩ := exists_getU32 (show 4 ≤ src.length by omega)
    have h1 := getU32_length hi
    obtain ⟨b, src₂, hb⟩ := exists_getU32 (show 4 ≤ src₁.length by omega)
    have h2 := getU32_length hb
    obtain ⟨l, src₃, hl⟩ := exists_getU32 (show 4 ≤ src₂.length by omega)
    simp only [decodeBody, Option.bind_eq_bind, Option.bind_some, hi, hb, hl, Option.isSome_some]
  | piece =>
    dsimp only [Room] at h
    have hzero := zeroed_sub p h.1 hn
    obtain ⟨i, src₁, hi⟩ := exists_getU32 (show 4 ≤ src.length by omega)
    have h1 := getU32_length hi
    obtain ⟨b, src₂, hb⟩ := exists_getU32 (show 4 ≤ src₁.length by omega)
    have h2 := getU32_length hb
    have hcopy : (List.replicate (n - 9) (0 : UInt8)).length ≤ src₂.length := by
      rw [List.length_replicate]
      omega
    simp only [decodeBody, Option.bind_eq_bind, ← Option.bind_assoc, hzero]
    simp only [Option.bind_some, hi, hb, copyToSlice_of_le hcopy, Option.isSome_some]

/-! ## Reads past the end -/

/-- The reads of the frame stay inside the buffer: a type of fixed size finds
its fields, in its own frame or behind it, and a piece declares at least the nine
bytes that come before its block. -/
def Covered (src : List UInt8) : Prop :=
  Complete src → msgLen src ≠ 0 → match msgType src with
    | some .have => 9 ≤ src.length
    | some .request | some .cancel => 17 ≤ src.length
    | some .piece => 9 ≤ msgLen src
    | _ => True

/-- The bytes of the buffer that a type needs, told by the room behind its byte. -/
theorem covered_iff_room (h : Complete src) (h0 : msgLen src ≠ 0) (ht : msgType src = some t) :
    Covered src ↔ Room (msgLen src) (src.drop 5).length t := by
  have hlen := h.2
  unfold Covered
  rw [ht, List.length_drop]
  cases t with
  | choke | unchoke | interested | notInterested => exact iff_of_true (fun _ _ => trivial) trivial
  | bitfield => exact iff_of_true (fun _ _ => trivial) ⟨by omega, by omega⟩
  | «have» | request | cancel =>
    dsimp only [Room]
    exact ⟨fun hc => by have := hc h h0; omega, fun hr _ _ => by omega⟩
  | piece =>
    dsimp only [Room]
    exact ⟨fun hc => ⟨hc h h0, by omega⟩, fun hr _ _ => hr.1⟩

/-- **`decode` does not panic, exactly when** no complete frame is too short for
its type with too few bytes behind it to fill the fields. -/
theorem decode_returns_iff (p : Profile) (src : List UInt8) :
    (decode p src).1 ≠ .stop .panicked ↔ Covered src := by
  by_cases h : Complete src
  · by_cases h0 : msgLen src = 0
    · rw [decode_keepAlive h h0]
      exact iff_of_true (by simp) fun _ hne => absurd h0 hne
    · cases ht : msgType src with
      | none =>
        rw [decode_invalid h h0 ht]
        refine iff_of_true (by simp) fun _ _ => ?_
        rw [ht]
        trivial
      | some t =>
        rw [covered_iff_room h h0 ht, decode_typed h h0 ht]
        constructor
        · intro hne
          cases hbody : decodeBody p (msgLen src) t (src.drop 5) with
          | none => rw [hbody] at hne; exact absurd rfl hne
          | some mr => exact room_of_decodeBody (msgLen_lt src) hbody
        · intro hroom
          obtain ⟨⟨msg, rest⟩, hbody⟩ :=
            Option.isSome_iff_exists.mp (decodeBody_of_room p (msgLen_lt src) hroom)
          rw [hbody]
          simp
  · rw [decode_more h]
    exact iff_of_true (by simp) fun hc => absurd hc h

/-- A `Have` that declares one byte, at the end of the buffer. -/
theorem short_have_panics : (decode .release [0, 0, 0, 1, 4]).1 = .stop .panicked := by
  decide

end Decode

end MessageCodec

end BitTorrent
