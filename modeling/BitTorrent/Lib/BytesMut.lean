import BitTorrent.Lib.Bytes

/-!
# A buffer with a capacity (`bytes::BytesMut`)

The capacity is counted from where the bytes start. A `get` takes its bytes off
the front, and the capacity goes with them; `clear` drops the bytes and keeps
the capacity. A `put` that does not fit makes the buffer larger: by how much is
up to the allocator, and an argument here. A datagram is received into the room
that is left, and what does not fit is lost (`recv`).

So the capacity only shrinks as long as the buffer is read and cleared, and a
buffer that is used again for every message gets smaller with each of them. That
the bytes fit is a field of the type (`fits`).

Mirroring notes:

* after a `put` that does not fit there is room for what is in the buffer and for
  `grow` bytes more. `BytesMut` may get back the room in front of its bytes then,
  and `grow` stands for that, too;
* a datagram is received once. What of it there was no room for cannot be received
  later;
* the words are read through `get`, which is `copy_to_slice`.
-/

namespace BitTorrent

/-- A buffer with its bytes, and the capacity it has for them. -/
@[ext] structure BytesMut where
  data : List UInt8
  capacity : Nat
  fits : data.length ≤ capacity
  deriving DecidableEq, Repr

namespace BytesMut

/-- `BytesMut::with_capacity`. -/
def withCapacity (capacity : Nat) : BytesMut := ⟨[], capacity, Nat.zero_le _⟩

/-- `Buf::remaining`. -/
def remaining (buf : BytesMut) : Nat := buf.data.length

/-- `BytesMut::clear`. The capacity stays. -/
def clear (buf : BytesMut) : BytesMut := ⟨[], buf.capacity, Nat.zero_le _⟩

/-- When there is no room for `src`, the buffer grows: `grow` bytes are left
behind it. -/
def put (grow : Nat) (buf : BytesMut) (src : List UInt8) : BytesMut :=
  if h : buf.data.length + src.length ≤ buf.capacity then
    ⟨buf.data ++ src, buf.capacity, by rw [List.length_append]; exact h⟩
  else
    ⟨buf.data ++ src, buf.data.length + src.length + grow, by rw [List.length_append]; omega⟩

/-- `recv_buf`: the bytes of a datagram for which there is room. -/
def recv (buf : BytesMut) (datagram : List UInt8) : BytesMut :=
  ⟨buf.data ++ datagram.take (buf.capacity - buf.data.length), buf.capacity, by
    have := buf.fits
    rw [List.length_append, List.length_take]
    omega⟩

/-- `copy_to_slice` of `n` bytes; `none` is a panic. -/
def get (n : Nat) (buf : BytesMut) : Option (List UInt8 × BytesMut) :=
  if n ≤ buf.data.length then
    some (buf.data.take n, ⟨buf.data.drop n, buf.capacity - n, by
      have := buf.fits
      rw [List.length_drop]
      omega⟩)
  else none

/-- `Buf::get_u16`; `none` is its panic. -/
def getU16 (buf : BytesMut) : Option (UInt16 × BytesMut) :=
  (buf.get 2).map fun (bs, buf) => (u16OfBytes bs, buf)

/-- `Buf::get_u32`; `none` is its panic. -/
def getU32 (buf : BytesMut) : Option (UInt32 × BytesMut) :=
  (buf.get 4).map fun (bs, buf) => (u32OfBytes bs, buf)

/-- `Buf::get_u64`; `none` is its panic. -/
def getU64 (buf : BytesMut) : Option (UInt64 × BytesMut) :=
  (buf.get 8).map fun (bs, buf) => (u64OfBytes bs, buf)

section Facts

variable {buf : BytesMut} {src tail datagram : List UInt8} {n grow : Nat}

@[simp] theorem clear_data (buf : BytesMut) : buf.clear.data = [] := rfl

@[simp] theorem put_data (grow : Nat) (buf : BytesMut) (src : List UInt8) :
    (buf.put grow src).data = buf.data ++ src := by
  unfold put
  split <;> rfl

theorem recv_data (hempty : buf.data = []) :
    (buf.recv datagram).data = datagram.take buf.capacity := by
  show buf.data ++ datagram.take (buf.capacity - buf.data.length) = _
  rw [hempty, List.length_nil, Nat.sub_zero, List.nil_append]

/-- Into an empty buffer a datagram is received whole, if it fits. -/
theorem recv_data_of_le (hempty : buf.data = []) (hfit : datagram.length ≤ buf.capacity) :
    (buf.recv datagram).data = datagram := by
  rw [recv_data hempty, List.take_of_length_le hfit]

/-- A read of what stands at the front. -/
theorem get_of_eq (hdata : buf.data = src ++ tail) (hn : src.length = n) :
    ∃ buf' : BytesMut, buf.get n = some (src, buf') ∧ buf'.data = tail := by
  have hle : n ≤ buf.data.length := by
    rw [hdata, List.length_append]
    omega
  have htake : buf.data.take n = src := by rw [hdata, List.take_left' hn]
  have hdrop : buf.data.drop n = tail := by rw [hdata, List.drop_left' hn]
  unfold get
  rw [if_pos hle, htake]
  exact ⟨_, rfl, hdrop⟩

/-- A read takes as many bytes as it asks for. -/
theorem get_length {bs : List UInt8} {buf' : BytesMut} (h : buf.get n = some (bs, buf')) :
    buf'.data.length + n = buf.data.length := by
  unfold get at h
  split at h
  next hle =>
    obtain ⟨-, rfl⟩ := Prod.mk.inj (Option.some.inj h)
    dsimp only
    rw [List.length_drop]
    omega
  next => cases h

/-- What was put is got back. -/
theorem getU32_of_eq {x : UInt32} (hdata : buf.data = u32Bytes x ++ tail) :
    ∃ buf' : BytesMut, buf.getU32 = some (x, buf') ∧ buf'.data = tail := by
  obtain ⟨buf', hget, htail⟩ := get_of_eq hdata (length_u32Bytes x)
  refine ⟨buf', ?_, htail⟩
  unfold getU32
  rw [hget]
  show some (u32OfBytes (u32Bytes x), buf') = _
  rw [u32OfBytes_u32Bytes]

/-- A read of the number that stands at the front. -/
theorem getU16_of_eq {x : UInt16} (hdata : buf.data = u16Bytes x ++ tail) :
    ∃ buf' : BytesMut, buf.getU16 = some (x, buf') ∧ buf'.data = tail := by
  obtain ⟨buf', hget, htail⟩ := get_of_eq hdata (length_u16Bytes x)
  refine ⟨buf', ?_, htail⟩
  unfold getU16
  rw [hget]
  show some (u16OfBytes (u16Bytes x), buf') = _
  rw [u16OfBytes_u16Bytes]

/-- A number of `n` bytes can be read when there are as many. -/
theorem map_get_of_le {α : Type} {f : List UInt8 → α} (h : n ≤ buf.data.length) :
    ∃ (x : α) (buf' : BytesMut), (buf.get n).map (fun p => (f p.1, p.2)) = some (x, buf') ∧
      buf'.data.length + n = buf.data.length := by
  obtain ⟨buf', hget, -⟩ :=
    get_of_eq (List.take_append_drop n buf.data).symm (List.length_take_of_le h)
  refine ⟨f (buf.data.take n), buf', ?_, get_length hget⟩
  rw [hget]
  rfl

theorem getU16_of_le (h : 2 ≤ buf.data.length) :
    ∃ (x : UInt16) (buf' : BytesMut), buf.getU16 = some (x, buf') ∧
      buf'.data.length + 2 = buf.data.length := map_get_of_le h

theorem getU32_of_le (h : 4 ≤ buf.data.length) :
    ∃ (x : UInt32) (buf' : BytesMut), buf.getU32 = some (x, buf') ∧
      buf'.data.length + 4 = buf.data.length := map_get_of_le h

theorem getU64_of_le (h : 8 ≤ buf.data.length) :
    ∃ (x : UInt64) (buf' : BytesMut), buf.getU64 = some (x, buf') ∧
      buf'.data.length + 8 = buf.data.length := map_get_of_le h

theorem getU32_length {x : UInt32} {buf' : BytesMut} (h : buf.getU32 = some (x, buf')) :
    buf'.data.length + 4 = buf.data.length := by
  obtain ⟨p, hget, heq⟩ := Option.map_eq_some_iff.mp h
  obtain ⟨-, rfl⟩ := Prod.mk.inj heq
  exact get_length hget

end Facts

end BytesMut

end BitTorrent
