import Mathlib.Tactic.Common

/-!
# Bytes as text, as Rust reads them

`fromUtf8` is `str::from_utf8` (and `String::from_utf8`): the text, or none when
the bytes are not UTF-8. `fromUtf8Lossy` is `String::from_utf8_lossy`: text that
is not UTF-8 is read chunk by chunk, and every ill-formed chunk becomes one
replacement character. A chunk ends before the first byte that cannot go on in
it, so what it holds is decided by its first bytes (`chunkLen`).

The validation itself is Lean's (`String.fromUTF8?`), which accepts what Rust
accepts: no overlong form, no surrogate, nothing above U+10FFFF. `isSecond` says
the same about the second byte of a chunk.

Where an error says at which byte the text broke off, this one does not
(`Utf8Error` is empty): the code only passes it on.
-/

namespace BitTorrent

/-- `str::Utf8Error`, without the place it names. -/
structure Utf8Error where
  deriving DecidableEq, Repr

/-- `String::from_utf8`. -/
def fromUtf8 (bytes : List UInt8) : Except Utf8Error String :=
  match String.fromUTF8? bytes.toByteArray with
  | some s => .ok s
  | none => .error ⟨⟩

/-- `str::as_bytes`. -/
def asBytes (s : String) : List UInt8 := s.toUTF8.data.toList

/-- U+FFFD. -/
def replacement : Char := Char.ofNat 0xFFFD

/-- A byte that goes on with a character. -/
def isTail (b : UInt8) : Bool := 0x80 ≤ b && b ≤ 0xBF

/-- Whether `b` may be the second of three or four bytes that begin with `lead`: no
overlong form, no surrogate, nothing above U+10FFFF. -/
def isSecond (lead b : UInt8) : Bool :=
  if lead = 0xE0 then 0xA0 ≤ b && b ≤ 0xBF
  else if lead = 0xED then 0x80 ≤ b && b ≤ 0x9F
  else if lead = 0xF0 then 0x90 ≤ b && b ≤ 0xBF
  else if lead = 0xF4 then 0x80 ≤ b && b ≤ 0x8F
  else isTail b

/-- How many bytes after `lead` a character takes. -/
def tails (lead : UInt8) : Nat :=
  if 0xC2 ≤ lead && lead ≤ 0xDF then 1
  else if 0xE0 ≤ lead && lead ≤ 0xEF then 2
  else if 0xF0 ≤ lead && lead ≤ 0xF4 then 3
  else 0

/-- The length of the first chunk of `lead :: bytes`. -/
def chunkLen (lead : UInt8) (bytes : List UInt8) : Nat :=
  match tails lead with
  | 0 => 1
  | 1 => 1 + ((bytes.take 1).takeWhile isTail).length
  | n + 2 =>
    match bytes with
    | [] => 1
    | b :: bytes =>
      if isSecond lead b then 2 + ((bytes.take (n + 1)).takeWhile isTail).length else 1

/-- Every chunk has a byte. -/
theorem one_le_chunkLen (lead : UInt8) (bytes : List UInt8) : 1 ≤ chunkLen lead bytes := by
  unfold chunkLen
  split
  · exact Nat.le_refl 1
  · exact Nat.le_add_right ..
  · split
    · exact Nat.le_refl 1
    · split
      · omega
      · exact Nat.le_refl 1

/-- The characters of the chunks. -/
@[semireducible] def chunks : List UInt8 → List Char
  | [] => []
  | b :: bytes =>
    let n := chunkLen b bytes
    (((b :: bytes).take n).toByteArray.utf8DecodeChar? 0).getD replacement ::
      chunks ((b :: bytes).drop n)
termination_by bytes => bytes.length
decreasing_by
  have := one_le_chunkLen b bytes
  simp only [List.length_drop, List.length_cons]
  omega

/-- `String::from_utf8_lossy`. -/
def fromUtf8Lossy (bytes : List UInt8) : String :=
  match fromUtf8 bytes with
  | .ok s => s
  | .error _ => String.ofList (chunks bytes)

/-- Bytes are UTF-8 when they are those of a text. -/
theorem fromUtf8_eq_ok {bytes : List UInt8} {s : String} :
    fromUtf8 bytes = .ok s ↔ asBytes s = bytes := by
  unfold fromUtf8 String.fromUTF8? asBytes
  rw [String.toUTF8_eq_toByteArray]
  constructor
  · intro h
    by_cases hvalid : bytes.toByteArray.IsValidUTF8
    · rw [dif_pos hvalid] at h
      cases h
      exact List.toList_data_toByteArray
    · rw [dif_neg hvalid] at h
      cases h
  · intro h
    have hs : bytes.toByteArray = s.toByteArray := by
      rw [← h]
      ext1
      rw [List.data_toByteArray, Array.toArray_toList]
    rw [dif_pos (hs ▸ s.isValidUTF8)]
    exact congrArg Except.ok (String.toByteArray_inj.mp hs)

theorem fromUtf8_asBytes (s : String) : fromUtf8 (asBytes s) = .ok s := fromUtf8_eq_ok.mpr rfl

theorem fromUtf8Lossy_asBytes (s : String) : fromUtf8Lossy (asBytes s) = s := by
  unfold fromUtf8Lossy
  rw [fromUtf8_asBytes]

/-- Texts with the same bytes are the same. -/
theorem asBytes_inj {s t : String} : asBytes s = asBytes t ↔ s = t := by
  constructor
  · intro h
    have hs := fromUtf8_asBytes s
    rw [h, fromUtf8_asBytes] at hs
    exact (Except.ok.inj hs).symm
  · exact congrArg asBytes

/-- ASCII is written byte by byte. -/
theorem asBytes_ascii {bytes : List UInt8} (h : ∀ b ∈ bytes, b.toNat < 128) :
    asBytes (String.ofList (bytes.map Char.ofUInt8)) = bytes := by
  have hencode : (bytes.map Char.ofUInt8).flatMap String.utf8EncodeChar = bytes := by
    induction bytes with
    | nil => rfl
    | cons b bytes ih =>
      have hb := h b (List.mem_cons_self ..)
      have hchar : String.utf8EncodeChar (Char.ofUInt8 b) = [b] := by
        have hval : (Char.ofUInt8 b).val.toNat = b.toNat := UInt8.toNat_toUInt32 b
        simp only [String.utf8EncodeChar]
        rw [hval, if_pos (by omega), UInt8.ofNat_toNat]
      rw [List.map_cons, List.flatMap_cons, hchar, ih fun c hc => h c (List.mem_cons_of_mem b hc)]
      rfl
  unfold asBytes
  rw [String.toUTF8_eq_toByteArray, String.toByteArray_ofList, List.utf8Encode, hencode]
  exact List.toList_data_toByteArray

/-- ASCII is UTF-8. -/
theorem fromUtf8_ascii {bytes : List UInt8} (h : ∀ b ∈ bytes, b.toNat < 128) :
    ∃ s, fromUtf8 bytes = .ok s := ⟨_, fromUtf8_eq_ok.mpr (asBytes_ascii h)⟩

example : asBytes (fromUtf8Lossy [0x68, 0xE2, 0x82, 0xFF, 0x69]) =
    asBytes "h" ++ asBytes (String.singleton replacement) ++
      asBytes (String.singleton replacement) ++ asBytes "i" := by decide +kernel

end BitTorrent
