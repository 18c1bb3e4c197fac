import Mathlib.Algebra.Group.Nat.Defs
import Mathlib.Tactic.Common

/-!
# Byte buffers (`bytes::Buf`, `bytes::BufMut`) and big-endian words

A buffer is the list of the bytes that remain. A `get` takes its bytes off the
front; it panics (`none`) when fewer remain than it reads, and otherwise it
depends on the bytes it takes and on nothing behind them (`getU32_append`). A
`put` appends.

Words are Lean's `UInt16`, `UInt32` and `UInt64`. Their bytes are given by shifts
(`u32Bytes`), and read by a fold from the highest byte on (`beNat`). Each is the
inverse of the other on lists of the right length, which is what the round trips of
the codecs rest on.

The capacity of a buffer and the sharing of its memory are left out, as `reserve`
does not change what is read. Where the capacity decides what can be received, the
buffer is that of `Lib.BytesMut`.
-/

namespace BitTorrent

/-- The number with the big-endian digits `bs`. -/
def beNat (bs : List UInt8) : Nat := bs.foldl (fun n b => n * 256 + b.toNat) 0

/-- `u32::from_be_bytes`. -/
def u32OfBytes (bs : List UInt8) : UInt32 := .ofNat (beNat bs)

/-- `u32::to_be_bytes`. -/
def u32Bytes (x : UInt32) : List UInt8 :=
  [.ofNat (x.toNat / 2 ^ 24), .ofNat (x.toNat / 2 ^ 16), .ofNat (x.toNat / 2 ^ 8), .ofNat x.toNat]

/-- `u16::from_be_bytes`, `u64::from_be_bytes` and their inverses. -/
def u16OfBytes (bs : List UInt8) : UInt16 := .ofNat (beNat bs)

/-- The number with these eight bytes. -/
def u64OfBytes (bs : List UInt8) : UInt64 := .ofNat (beNat bs)

/-- The two bytes of a number, the highest first. -/
def u16Bytes (x : UInt16) : List UInt8 := [.ofNat (x.toNat / 2 ^ 8), .ofNat x.toNat]

/-- The eight bytes of a number, the highest first. -/
def u64Bytes (x : UInt64) : List UInt8 :=
  u32Bytes (.ofNat (x.toNat / 2 ^ 32)) ++ u32Bytes (.ofNat x.toNat)

@[simp] theorem length_u32Bytes (x : UInt32) : (u32Bytes x).length = 4 := rfl

/-- A number is what its bytes say. -/
theorem u32OfBytes_u32Bytes (x : UInt32) : u32OfBytes (u32Bytes x) = x := by
  have hx : x.toNat < 2 ^ 32 := x.toNat_lt
  apply UInt32.toNat_inj.mp
  simp only [u32OfBytes, u32Bytes, beNat, List.foldl_cons, List.foldl_nil, UInt8.toNat_ofNat',
    UInt32.toNat_ofNat']
  omega

@[simp] theorem length_u16Bytes (x : UInt16) : (u16Bytes x).length = 2 := rfl

@[simp] theorem length_u64Bytes (x : UInt64) : (u64Bytes x).length = 8 := rfl

/-- A number is what its bytes say. -/
theorem u16OfBytes_u16Bytes (x : UInt16) : u16OfBytes (u16Bytes x) = x := by
  have hx : x.toNat < 2 ^ 16 := x.toNat_lt
  apply UInt16.toNat_inj.mp
  simp only [u16OfBytes, u16Bytes, beNat, List.foldl_cons, List.foldl_nil, UInt8.toNat_ofNat',
    UInt16.toNat_ofNat']
  omega

/-- Four bytes are those of their number. -/
theorem u32Bytes_u32OfBytes {bs : List UInt8} (h : bs.length = 4) :
    u32Bytes (u32OfBytes bs) = bs := by
  match bs, h with
  | [a, b, c, d], _ =>
    have ha := a.toNat_lt
    have hb := b.toNat_lt
    have hc := c.toNat_lt
    have hd := d.toNat_lt
    simp only [u32OfBytes, u32Bytes, beNat, List.foldl_cons, List.foldl_nil, UInt32.toNat_ofNat',
      List.cons.injEq, ← UInt8.toNat_inj, UInt8.toNat_ofNat']
    refine ⟨?_, ?_, ?_, ?_, trivial⟩ <;> omega

/-- Four bytes are some word. -/
theorem exists_u32 {bs : List UInt8} (h : 4 ≤ bs.length) : ∃ x tail, bs = u32Bytes x ++ tail := by
  refine ⟨u32OfBytes (bs.take 4), bs.drop 4, ?_⟩
  rw [u32Bytes_u32OfBytes (List.length_take_of_le h), List.take_append_drop]

theorem u32Bytes_append_inj {x y : UInt32} {xs ys : List UInt8}
    (h : u32Bytes x ++ xs = u32Bytes y ++ ys) : x = y ∧ xs = ys := by
  obtain ⟨hhead, htail⟩ := List.append_inj h rfl
  refine ⟨?_, htail⟩
  rw [← u32OfBytes_u32Bytes x, hhead, u32OfBytes_u32Bytes]

/-! ## Reading -/

/-- `Buf::get_u8`; `none` is its panic. -/
def getU8 : List UInt8 → Option (UInt8 × List UInt8)
  | b :: src => some (b, src)
  | [] => none

/-- `Buf::get_u32`; `none` is its panic. -/
def getU32 (src : List UInt8) : Option (UInt32 × List UInt8) :=
  if 4 ≤ src.length then some (u32OfBytes (src.take 4), src.drop 4) else none

/-- `src.copy_to_slice(&mut dst)`. -/
def copyToSlice (src dst : List UInt8) : Option (List UInt8 × List UInt8) :=
  if dst.length ≤ src.length then some (src.take dst.length, src.drop dst.length) else none

/-- `src.copy_to_slice(&mut dst)` for an array `dst`. -/
def copyToArray {n : Nat} (src : List UInt8) (_dst : Vector UInt8 n) :
    Option (Vector UInt8 n × List UInt8) :=
  if h : n ≤ src.length then
    some (⟨(src.take n).toArray, by rw [List.size_toArray, List.length_take_of_le h]⟩, src.drop n)
  else none

/-- `<[u8; n]>::try_from` of a slice. -/
def tryInto (n : Nat) (src : List UInt8) : Option (Vector UInt8 n) :=
  if h : src.length = n then some ⟨src.toArray, by rw [List.size_toArray, h]⟩ else none

/-- `vec![0; n]`, which panics when it would exceed `isize::MAX` bytes. -/
def zeroed (n : Nat) : Option (List UInt8) :=
  if n < 2 ^ 63 then some (List.replicate n 0) else none

section Read

variable {src rest dst bs : List UInt8} {x : UInt32}

theorem getU32_of_le (h : 4 ≤ src.length) :
    getU32 src = some (u32OfBytes (src.take 4), src.drop 4) := if_pos h

/-- The read takes four bytes. -/
theorem getU32_length (h : getU32 src = some (x, rest)) : rest.length + 4 = src.length := by
  unfold getU32 at h
  split at h
  next hle =>
    obtain ⟨-, rfl⟩ := Prod.mk.inj (Option.some.inj h)
    rw [List.length_drop]
    omega
  next => cases h

/-- What stands behind the four bytes is left. -/
theorem getU32_append (h : getU32 src = some (x, rest)) (tail : List UInt8) :
    getU32 (src ++ tail) = some (x, rest ++ tail) := by
  have hlen := getU32_length h
  rw [getU32_of_le (by omega)] at h
  rw [getU32_of_le (by rw [List.length_append]; omega), List.take_append_of_le_length (by omega),
    List.drop_append_of_le_length (by omega)]
  obtain ⟨rfl, rfl⟩ := Prod.mk.inj (Option.some.inj h)
  rfl

/-- What was put is got back. -/
theorem getU32_u32Bytes (x : UInt32) (tail : List UInt8) :
    getU32 (u32Bytes x ++ tail) = some (x, tail) := by
  have h : getU32 (u32Bytes x) = some (x, []) := by
    rw [getU32_of_le (show 4 ≤ (u32Bytes x).length from Nat.le_refl 4)]
    exact congrArg (fun y => some (y, [])) (u32OfBytes_u32Bytes x)
  exact getU32_append h tail

/-- The read takes as many bytes as there is room for. -/
theorem copyToSlice_length (h : copyToSlice src dst = some (bs, rest)) :
    rest.length + dst.length = src.length := by
  unfold copyToSlice at h
  split at h
  next hle =>
    obtain ⟨-, rfl⟩ := Prod.mk.inj (Option.some.inj h)
    rw [List.length_drop]
    omega
  next => cases h

theorem copyToSlice_of_le (h : dst.length ≤ src.length) :
    copyToSlice src dst = some (src.take dst.length, src.drop dst.length) := if_pos h

/-- What stands behind the bytes is left. -/
theorem copyToSlice_append (h : copyToSlice src dst = some (bs, rest)) (tail : List UInt8) :
    copyToSlice (src ++ tail) dst = some (bs, rest ++ tail) := by
  have hlen := copyToSlice_length h
  rw [copyToSlice_of_le (by omega)] at h
  rw [copyToSlice_of_le (by rw [List.length_append]; omega),
    List.take_append_of_le_length (by omega), List.drop_append_of_le_length (by omega)]
  obtain ⟨rfl, rfl⟩ := Prod.mk.inj (Option.some.inj h)
  rfl

/-- An array is filled with the bytes at the front. -/
theorem copyToArray_eq_some {n : Nat} {dst v : Vector UInt8 n} :
    copyToArray src dst = some (v, rest) ↔ src = v.toList ++ rest := by
  unfold copyToArray
  constructor
  · intro h
    split at h
    next hle =>
      obtain ⟨rfl, rfl⟩ := Prod.mk.inj (Option.some.inj h)
      exact (List.take_append_drop n src).symm
    next => cases h
  · intro h
    have hlen : v.toList.length = n := Vector.length_toList
    have htake : src.take n = v.toList := by rw [h, List.take_left' hlen]
    have hdrop : src.drop n = rest := by rw [h, List.drop_left' hlen]
    rw [dif_pos (by rw [h, List.length_append]; omega)]
    simp only [htake, hdrop, Option.some.injEq, Prod.mk.injEq, and_true]
    exact Vector.toList_inj.mp rfl

/-- An array of bytes is there to be read. -/
theorem exists_array {n : Nat} (h : n ≤ src.length) :
    ∃ v : Vector UInt8 n, src = v.toList ++ src.drop n :=
  ⟨⟨(src.take n).toArray, by rw [List.size_toArray, List.length_take_of_le h]⟩,
    (List.take_append_drop n src).symm⟩

theorem tryInto_toList {n : Nat} (v : Vector UInt8 n) : tryInto n v.toList = some v := by
  unfold tryInto
  rw [dif_pos Vector.length_toList]
  rfl

theorem zeroed_of_lt {n : Nat} (h : n < 2 ^ 63) : zeroed n = some (List.replicate n 0) := if_pos h

end Read

/-! ## Writing -/

/-- `BufMut::put_u8`. -/
def putU8 (dst : List UInt8) (n : UInt8) : List UInt8 := dst ++ [n]

/-- `BufMut::put_u32`. -/
def putU32 (dst : List UInt8) (n : UInt32) : List UInt8 := dst ++ u32Bytes n

end BitTorrent
