import Mathlib.Algebra.BigOperators.Intervals
import Mathlib.Tactic.IntervalCases

/-!
# Byte strings as bit strings, most significant bit first

Bit `i` of a byte string is bit `7 - i % 8` of byte `i / 8`; positions past the
end read as `0`. `setBit` sets one bit and `ones` counts the set bits byte by
byte, and the two results that connect them to positions are

* `bitAt_setBit`: setting bit `i` changes position `i` and no other;
* `ones_eq_card`: the byte-wise count is the number of positions that are set.

`testMask` is the test on a byte as code writes it, `b & 1 << k > 0`.

A byte is a `UInt8`. Facts about one byte are proved bit by bit (`byteBit`), and facts
about a string by induction on it: the first byte has the first eight positions, and
the others move up by eight.
-/

namespace BitTorrent

/-- Bit `k` of a byte, `0` the least significant. -/
def byteBit (b : UInt8) (k : Nat) : Bool := b.toBitVec.getLsbD k

/-- `b & 1 << k > 0`. -/
def testMask (b k : UInt8) : Bool := decide (b &&& 1 <<< k > 0)

/-- `b | 1 << k`. -/
def orMask (b k : UInt8) : UInt8 := b ||| 1 <<< k

/-- `u8::count_ones`. -/
def countOnes (b : UInt8) : Nat := ∑ k ∈ Finset.range 8, (byteBit b k).toNat

/-- Bit `i` of a byte string, most significant bit first. -/
def bitAt (v : List UInt8) (i : Nat) : Bool := byteBit (v[i / 8]?.getD 0) (7 - i % 8)

/-- The byte string with bit `i` set. -/
def setBit (v : List UInt8) (i : Nat) : List UInt8 :=
  v.modify (i / 8) fun b => orMask b (UInt8.ofNat (7 - i % 8))

/-- The set bits, counted byte by byte. -/
def ones (v : List UInt8) : Nat := (v.map countOnes).sum

theorem toBitVec_one_shiftLeft {k : Nat} (hk : k < 8) :
    ((1 : UInt8) <<< UInt8.ofNat k).toBitVec = 1#8 <<< k := by
  interval_cases k <;> rfl

/-- The mask has its own bit and no other. -/
theorem byteBit_one_shiftLeft {k : Nat} (hk : k < 8) (j : Nat) :
    byteBit ((1 : UInt8) <<< UInt8.ofNat k) j = decide (j = k) := by
  rw [byteBit, toBitVec_one_shiftLeft hk, BitVec.getLsbD_shiftLeft, BitVec.getLsbD_one]
  by_cases h : j = k
  · subst h; simp [hk]
  · simp only [h, decide_false]
    by_cases hlt : j < k
    · simp [hlt]
    · simp [show j - k ≠ 0 by omega]

theorem byteBit_orMask {k : Nat} (hk : k < 8) (b : UInt8) (j : Nat) :
    byteBit (orMask b (UInt8.ofNat k)) j = (byteBit b j || decide (j = k)) := by
  rw [← byteBit_one_shiftLeft hk j]
  exact BitVec.getLsbD_or

/-- The mask test reads one bit. -/
theorem testMask_eq {k : Nat} (hk : k < 8) (b : UInt8) :
    testMask b (UInt8.ofNat k) = byteBit b k := by
  have hbit : ∀ j, byteBit (b &&& 1 <<< UInt8.ofNat k) j = (byteBit b j && decide (j = k)) := by
    intro j
    rw [← byteBit_one_shiftLeft hk j]
    exact BitVec.getLsbD_and
  cases hb : byteBit b k with
  | true =>
    refine decide_eq_true (UInt8.pos_iff_ne_zero.mpr fun h0 => ?_)
    have := hbit k
    rw [h0, hb] at this
    simp [byteBit] at this
  | false =>
    have h0 : b &&& 1 <<< UInt8.ofNat k = 0 := by
      apply UInt8.toBitVec_inj.mp
      apply BitVec.eq_of_getLsbD_eq
      intro j _
      show byteBit (b &&& 1 <<< UInt8.ofNat k) j = _
      rw [hbit j]
      by_cases hj : j = k
      · rw [hj, hb]; simp
      · simp [hj]
    rw [testMask, h0]
    rfl

@[simp] theorem length_setBit (v : List UInt8) (i : Nat) : (setBit v i).length = v.length :=
  List.length_modify ..

theorem bitAt_of_length_le {v : List UInt8} {i : Nat} (h : 8 * v.length ≤ i) :
    bitAt v i = false := by
  rw [bitAt, List.getElem?_eq_none (by omega)]
  exact BitVec.getLsbD_zero

theorem lt_of_bitAt {v : List UInt8} {i : Nat} (h : bitAt v i = true) : i < 8 * v.length := by
  by_contra hlt
  rw [bitAt_of_length_le (by omega)] at h
  cases h

theorem bitAt_replicate_zero (m i : Nat) : bitAt (List.replicate m 0) i = false := by
  rw [bitAt, List.getElem?_replicate]
  split
  · exact BitVec.getLsbD_zero
  · exact BitVec.getLsbD_zero

/-- Setting bit `i` changes position `i` and no other. -/
theorem bitAt_setBit {v : List UInt8} {i : Nat} (hi : i < 8 * v.length) (j : Nat) :
    bitAt (setBit v i) j = (bitAt v j || decide (j = i)) := by
  rw [bitAt, bitAt, setBit, List.getElem?_modify]
  by_cases hij : i / 8 = j / 8
  · rw [← hij, List.getElem?_eq_getElem (by omega)]
    simp only [if_true]
    show byteBit (orMask v[i / 8] (UInt8.ofNat (7 - i % 8))) (7 - j % 8) = _
    rw [byteBit_orMask (show 7 - i % 8 < 8 by omega)]
    congr 1
    exact decide_eq_decide.mpr ⟨fun h => by omega, fun h => by rw [h]⟩
  · have hne : j ≠ i := fun h => hij (by rw [h])
    simp [hij, hne]

/-! ## The byte-wise count -/

theorem ones_cons (b : UInt8) (v : List UInt8) : ones (b :: v) = countOnes b + ones v := by
  simp [ones]

/-- The first eight bits are those of the first byte, its highest first. -/
theorem bitAt_cons_lt {i : Nat} (hi : i < 8) (b : UInt8) (v : List UInt8) :
    bitAt (b :: v) i = byteBit b (7 - i) := by
  rw [bitAt, Nat.div_eq_of_lt hi, Nat.mod_eq_of_lt hi]
  rfl

theorem bitAt_cons_add (i : Nat) (b : UInt8) (v : List UInt8) :
    bitAt (b :: v) (8 + i) = bitAt v i := by
  rw [bitAt, bitAt, show (8 + i) / 8 = i / 8 + 1 by omega, show (8 + i) % 8 = i % 8 by omega]
  rfl

/-- The ones are the bits that are set. -/
theorem ones_eq_sum (v : List UInt8) :
    ones v = ∑ i ∈ Finset.range (8 * v.length), (bitAt v i).toNat := by
  induction v with
  | nil => rfl
  | cons b v ih =>
    have hb : ∑ i ∈ Finset.range 8, (bitAt (b :: v) i).toNat = countOnes b := by
      rw [countOnes, ← Finset.sum_range_reflect]
      refine Finset.sum_congr rfl fun i hi => ?_
      have hlt := Finset.mem_range.mp hi
      rw [bitAt_cons_lt (by omega), show 7 - (8 - 1 - i) = i by omega]
    rw [ones_cons, ih, List.length_cons, show 8 * (v.length + 1) = 8 + 8 * v.length by omega,
      Finset.sum_range_add, hb]
    congr 1
    refine Finset.sum_congr rfl fun i _ => ?_
    rw [bitAt_cons_add]

/-- The byte-wise count is the number of positions that are set. -/
theorem ones_eq_card (v : List UInt8) :
    ones v = ((Finset.range (8 * v.length)).filter fun i => bitAt v i = true).card := by
  rw [ones_eq_sum, Finset.card_filter]
  refine Finset.sum_congr rfl fun i _ => ?_
  cases bitAt v i <;> rfl

end BitTorrent
