import BitTorrent.Download.Bitfield

/-!
# The seed test (`is_seed` in `download/bitfield.rs`)

`is_seed` compares all bytes but the last with `255`, and then tests the bits of
the last byte one by one, up to the number of pieces. The last byte is that of
the vector the peer sent, wherever the last piece is. So the test is the one it
is meant to be (`HasAll`) when the vector is as long as the pieces need, and for
some other vectors: `is_seed_exact_iff` says for which.

* on an empty vector `bitfield.len() - 1` panics, or wraps around (`NoWrap`);
* a short one without a clear bit is read past its end;
* in a long one the padding bytes are compared with `255`, too.

Mirroring notes:

* the loop over the range is recursion on the number of rounds, with the index
  counted up. It ends at the first clear bit, or at an index out of bounds;
* the index is cast to `u32` in each round, as in the source. Below `2 ^ 29` bytes
  the cast changes nothing;
* shifts and masks of a byte are those of `Lib.Bits`.
-/

namespace BitTorrent

/-- The loop over the last byte: `count` pieces from `idx` on. -/
def isSeedLoop (bitfield : List UInt8) : Nat → Nat → Option Bool
  | 0, _ => some true
  | count + 1, idx =>
    let (bucket, offset) := pieceBucketOffset (asU32 idx)
    match bitfield[bucket]? with
    | none => none
    | some byte => if testMask byte offset then isSeedLoop bitfield count (idx + 1) else some false

/-- `none` is a panic: an index out of bounds, or an overflow. -/
def isSeed (p : Profile) (totalPieces : Nat) (bitfield : List UInt8) : Option Bool :=
  if bitfield.length > 1 ∧ bitfield.dropLast.any (· ≠ 255) then some false
  else do
    let last ← p.sub 64 bitfield.length 1
    let lastIdx ← p.mul 64 last 8
    isSeedLoop bitfield (totalPieces - lastIdx) lastIdx

/-- The vector has a bit for each piece, and all of them are set. -/
def HasAll (n : Nat) (v : List UInt8) : Prop :=
  (n + 7) / 8 ≤ v.length ∧ ∀ i, i < n → bitAt v i = true

instance (n : Nat) (v : List UInt8) : Decidable (HasAll n v) := inferInstanceAs (Decidable (_ ∧ _))

/-- A piece has a bit in the vector, and it is clear. -/
def Gap (n : Nat) (v : List UInt8) : Prop := ∃ i, i < n ∧ i < 8 * v.length ∧ bitAt v i = false

/-- All bytes but the last are full. -/
def LeadingFull (v : List UInt8) : Prop := ∀ j, j + 1 < v.length → v[j]? = some 255

/-- The arithmetic of `is_seed` gives what it gives in the integers: neither
`bitfield.len() - 1` nor the product with 8 panics or wraps around. -/
def NoWrap (p : Profile) (v : List UInt8) : Prop :=
  ∃ last lastIdx, p.sub 64 v.length 1 = some last ∧ p.mul 64 last 8 = some lastIdx ∧
    (lastIdx : Int) = ((v.length : Int) - 1) * 8

/-- The vectors on which the test is exact: those that lack a piece they have a
bit for, and those that are full up to the last byte and long enough. Beyond
`2 ^ 29` bytes the index of the last byte's bits does not fit in a `u32`. -/
def SeedReadable (n : Nat) (v : List UInt8) : Prop :=
  v ≠ [] ∧
    ((Gap n v ∧ (8 * (v.length - 1) < 2 ^ 32 ∨ ¬ LeadingFull v)) ∨
      (¬ Gap n v ∧ LeadingFull v ∧ n ≤ 8 * v.length))

section IsSeed

variable {p : Profile} {n i count idx : Nat} {v : List UInt8}

/-! ## Bits and bytes -/

theorem byteBit_full {k : Nat} (hk : k < 8) : byteBit 255 k = true := by
  interval_cases k <;> rfl

/-- A byte that is not full has a clear bit. -/
theorem exists_clear {b : UInt8} (hb : b ≠ 255) : ∃ k, k < 8 ∧ byteBit b k = false := by
  by_contra hall
  refine hb (UInt8.toBitVec_inj.mp (BitVec.eq_of_getLsbD_eq fun k hk => ?_))
  have hset : byteBit b k = true := by
    by_contra hclear
    exact hall ⟨k, hk, Bool.eq_false_iff.mpr hclear⟩
  exact hset.trans (byteBit_full hk).symm

theorem LeadingFull.bitAt (h : LeadingFull v) (hi : i / 8 + 1 < v.length) : bitAt v i = true := by
  unfold BitTorrent.bitAt
  rw [h (i / 8) hi, Option.getD_some]
  exact byteBit_full (by omega)

/-- The first test of `is_seed` lets the vectors through that are full up to the
last byte. -/
theorem leadingFull_iff : LeadingFull v ↔ ¬ (v.length > 1 ∧ v.dropLast.any (· ≠ 255)) := by
  have hget : ∀ j, j + 1 < v.length → v.dropLast[j]? = v[j]? := fun j hj => by
    rw [List.getElem?_dropLast, if_pos (by omega)]
  constructor
  · intro h hany
    obtain ⟨b, hb, hne⟩ := List.any_eq_true.mp hany.2
    obtain ⟨j, hj, hjb⟩ := List.getElem_of_mem hb
    rw [List.length_dropLast] at hj
    have hfull := h j (by omega)
    rw [← hget j (by omega), List.getElem?_eq_getElem (by rw [List.length_dropLast]; omega), hjb]
      at hfull
    rw [Option.some.inj hfull] at hne
    exact absurd hne (by decide)
  · intro hnot j hj
    have hlt : j < v.dropLast.length := by
      rw [List.length_dropLast]
      omega
    rw [← hget j hj, List.getElem?_eq_getElem hlt]
    by_contra hne
    have hbyte : v.dropLast[j] ≠ 255 := fun heq => hne (congrArg some heq)
    exact hnot ⟨by omega, List.any_eq_true.mpr ⟨_, List.getElem_mem hlt, decide_eq_true hbyte⟩⟩

/-- All pieces are there when no bit is clear and the vector is long enough. -/
theorem hasAll_iff : HasAll n v ↔ ¬ Gap n v ∧ n ≤ 8 * v.length := by
  constructor
  · intro ⟨hlen, hall⟩
    refine ⟨fun hgap => ?_, by omega⟩
    obtain ⟨i, hi, -, hclear⟩ := hgap
    rw [hall i hi] at hclear
    cases hclear
  · intro ⟨hgap, hlen⟩
    refine ⟨by omega, fun i hi => ?_⟩
    by_contra hclear
    exact hgap ⟨i, hi, by omega, Bool.eq_false_iff.mpr hclear⟩

/-- A byte before the last that is not full, and the pieces end before its clear bit. -/
theorem hasAll_of_not_leadingFull (h : ¬ LeadingFull v) : HasAll n v ↔ ¬ Gap n v := by
  rw [hasAll_iff]
  refine ⟨And.left, fun hgap => ⟨hgap, ?_⟩⟩
  by_contra hlen
  refine h fun j hj => ?_
  rw [List.getElem?_eq_getElem (by omega)]
  by_contra hne
  obtain ⟨k, hk, hclear⟩ := exists_clear fun heq => hne (congrArg some heq)
  refine hgap ⟨8 * j + (7 - k), by omega, by omega, ?_⟩
  unfold bitAt
  rw [show (8 * j + (7 - k)) / 8 = j by omega, show 7 - (8 * j + (7 - k)) % 8 = k by omega,
    List.getElem?_eq_getElem (by omega), Option.getD_some]
  exact hclear

/-! ## The loop -/

/-- The bit the loop tests for `i` is in the vector, and set. -/
def Reads (v : List UInt8) (i : Nat) : Prop := asU32 i < 8 * v.length ∧ bitAt v (asU32 i) = true

/-- One round of the loop. -/
theorem isSeedLoop_succ (v : List UInt8) (count idx : Nat) :
    isSeedLoop v (count + 1) idx =
      if asU32 idx < 8 * v.length then
        if bitAt v (asU32 idx) then isSeedLoop v count (idx + 1) else some false
      else none := by
  by_cases hlt : asU32 idx < 8 * v.length
  · have hbyte : asU32 idx / 8 < v.length := by omega
    have hbit : bitAt v (asU32 idx) = byteBit v[asU32 idx / 8] (7 - asU32 idx % 8) := by
      rw [bitAt, List.getElem?_eq_getElem hbyte, Option.getD_some]
    rw [if_pos hlt, isSeedLoop, pieceBucketOffset]
    simp only [List.getElem?_eq_getElem hbyte]
    rw [testMask_eq (show 7 - asU32 idx % 8 < 8 by omega), hbit]
  · rw [if_neg hlt, isSeedLoop, pieceBucketOffset]
    simp only [List.getElem?_eq_none (show v.length ≤ asU32 idx / 8 by omega)]

/-- The loop says yes when it reads a set bit in every round. -/
theorem isSeedLoop_eq_true :
    isSeedLoop v count idx = some true ↔ ∀ i, idx ≤ i → i < idx + count → Reads v i := by
  induction count generalizing idx with
  | zero => exact ⟨fun _ i hle hlt => by omega, fun _ => rfl⟩
  | succ count ih =>
    rw [isSeedLoop_succ]
    constructor
    · intro h i hle hlt
      split at h
      next hin =>
        split at h
        next hbit =>
          by_cases heq : i = idx
          · rw [heq]
            exact ⟨hin, hbit⟩
          · exact ih.mp h i (by omega) (by omega)
        next => cases h
      next => cases h
    · intro hall
      obtain ⟨hin, hbit⟩ := hall idx (Nat.le_refl _) (by omega)
      rw [if_pos hin, if_pos hbit]
      exact ih.mpr fun i hle hlt => hall i (by omega) (by omega)

/-- The loop ends with `false` at the first clear bit, when it gets there. -/
theorem isSeedLoop_eq_false :
    isSeedLoop v count idx = some false ↔ ∃ i, idx ≤ i ∧ i < idx + count ∧
      (asU32 i < 8 * v.length ∧ bitAt v (asU32 i) = false) ∧ ∀ j, idx ≤ j → j < i → Reads v j := by
  induction count generalizing idx with
  | zero =>
    refine ⟨(nomatch ·), fun h => ?_⟩
    obtain ⟨i, hle, hlt, -⟩ := h
    omega
  | succ count ih =>
    rw [isSeedLoop_succ]
    constructor
    · intro h
      split at h
      next hin =>
        split at h
        next hbit =>
          obtain ⟨i, hle, hlt, hclear, hbefore⟩ := ih.mp h
          refine ⟨i, by omega, by omega, hclear, fun j hjle hjlt => ?_⟩
          by_cases heq : j = idx
          · rw [heq]
            exact ⟨hin, hbit⟩
          · exact hbefore j (by omega) hjlt
        next hbit =>
          exact ⟨idx, Nat.le_refl _, by omega, ⟨hin, Bool.eq_false_iff.mpr hbit⟩,
            fun j hle hlt => by omega⟩
      next => cases h
    · intro h
      obtain ⟨i, hle, hlt, ⟨hin, hclear⟩, hbefore⟩ := h
      by_cases heq : i = idx
      · rw [← heq, if_pos hin, if_neg (by rw [hclear]; exact Bool.false_ne_true)]
      · obtain ⟨hin', hbit'⟩ := hbefore idx (Nat.le_refl _) (by omega)
        rw [if_pos hin', if_pos hbit']
        exact ih.mpr ⟨i, by omega, by omega, ⟨hin, hclear⟩,
          fun j hjle hjlt => hbefore j (by omega) hjlt⟩

/-! ## The test -/

theorem isSeed_of_leadingFull (p : Profile) (n : Nat) (hfull : LeadingFull v) (hne : v ≠ [])
    (hv : v.length < 2 ^ 32) :
    isSeed p n v = isSeedLoop v (n - 8 * (v.length - 1)) (8 * (v.length - 1)) := by
  have hpos := List.length_pos_iff.mpr hne
  unfold isSeed
  rw [if_neg (leadingFull_iff.mp hfull), p.sub_of_le hpos, Option.bind_eq_bind, Option.bind_some,
    p.mul_of_lt (by omega), Option.bind_some, Nat.mul_comm]

/-- With full bytes before it, the last byte decides. -/
theorem isSeed_leadingFull_iff (p : Profile) (n : Nat) (hfull : LeadingFull v) (hne : v ≠ [])
    (hv : v.length < 2 ^ 32) : isSeed p n v = some (decide (HasAll n v)) ↔
      (Gap n v ∧ 8 * (v.length - 1) < 2 ^ 32) ∨ (¬ Gap n v ∧ n ≤ 8 * v.length) := by
  have hpos := List.length_pos_iff.mpr hne
  rw [isSeed_of_leadingFull p n hfull hne hv]
  by_cases hlast : 8 * (v.length - 1) < 2 ^ 32
  · -- the bits of the last byte are tested under their own index
    have hindex : ∀ i, i < 8 * v.length → asU32 i = i := fun i hi => asU32_of_lt (by omega)
    by_cases hgap : Gap n v
    · have hall : ¬ HasAll n v := fun h => (hasAll_iff.mp h).1 hgap
      rw [decide_eq_false hall]
      refine iff_of_true (isSeedLoop_eq_false.mpr ?_) (Or.inl ⟨hgap, hlast⟩)
      have hleast := Nat.find_spec hgap
      have hbefore : ∀ j, j < Nat.find hgap → bitAt v j = true := fun j hj => by
        by_contra hclear
        exact Nat.find_min hgap hj ⟨by omega, by omega, Bool.eq_false_iff.mpr hclear⟩
      have hbehind : 8 * (v.length - 1) ≤ Nat.find hgap := by
        by_contra hlt
        have hset := hfull.bitAt (i := Nat.find hgap) (by omega)
        rw [hleast.2.2] at hset
        cases hset
      refine ⟨Nat.find hgap, hbehind, by omega, ?_, fun j hle hlt => ?_⟩
      · rw [hindex _ hleast.2.1]
        exact hleast.2
      · unfold Reads
        rw [hindex j (by omega)]
        exact ⟨by omega, hbefore j hlt⟩
    · have hset : ∀ i, i < n → i < 8 * v.length → bitAt v i = true := fun i hn hi => by
        by_contra hclear
        exact hgap ⟨i, hn, hi, Bool.eq_false_iff.mpr hclear⟩
      by_cases hlen : n ≤ 8 * v.length
      · rw [decide_eq_true (hasAll_iff.mpr ⟨hgap, hlen⟩)]
        refine iff_of_true (isSeedLoop_eq_true.mpr fun i hle hlt => ?_) (Or.inr ⟨hgap, hlen⟩)
        unfold Reads
        rw [hindex i (by omega)]
        exact ⟨by omega, hset i (by omega) (by omega)⟩
      · -- the vector is full and too short: nothing makes the loop return `false`
        rw [decide_eq_false fun h => hlen (hasAll_iff.mp h).2]
        refine iff_of_false (fun h => ?_) fun h => ?_
        · obtain ⟨i, -, -, ⟨hin, hclear⟩, -⟩ := isSeedLoop_eq_false.mp h
          rw [hset (asU32 i) (by omega) hin] at hclear
          cases hclear
        · exact h.elim (fun h => hgap h.1) fun h => hlen h.2
  · -- every index is cut to one before the last byte
    have hloop : isSeedLoop v (n - 8 * (v.length - 1)) (8 * (v.length - 1)) = some true :=
      isSeedLoop_eq_true.mpr fun i _ _ => by
        have hcut : asU32 i < 2 ^ 32 := Nat.mod_lt _ (Nat.two_pow_pos 32)
        exact ⟨by omega, hfull.bitAt (by omega)⟩
    rw [hloop, Option.some.injEq, eq_comm, decide_eq_true_iff, hasAll_iff]
    exact ⟨Or.inr, fun h => h.resolve_left fun h => hlast h.2⟩

/-- A vector that passes the test has every piece, unless it is empty. -/
theorem hasAll_of_isSeed (hn : n < 2 ^ 32) (hv : v.length < 2 ^ 32) (hne : v ≠ [])
    (h : isSeed p n v = some true) : HasAll n v := by
  have hfull : LeadingFull v := by
    by_contra hfull
    have hfalse : isSeed p n v = some false :=
      if_pos (Decidable.not_not.mp fun h => hfull (leadingFull_iff.mpr h))
    rw [hfalse] at h
    cases h
  rw [isSeed_of_leadingFull p n hfull hne hv] at h
  have hreads : ∀ i, i < n → 8 * (v.length - 1) ≤ i → i < 8 * v.length ∧ bitAt v i = true :=
    fun i hi hle => by
      have hread := isSeedLoop_eq_true.mp h i hle (by omega)
      unfold Reads at hread
      rw [asU32_of_lt (by omega)] at hread
      exact hread
  have hset : ∀ i, i < n → i < 8 * v.length ∧ bitAt v i = true := fun i hi => by
    by_cases hle : 8 * (v.length - 1) ≤ i
    · exact hreads i hi hle
    · exact ⟨by omega, hfull.bitAt (by omega)⟩
  refine ⟨?_, fun i hi => (hset i hi).2⟩
  by_cases h0 : n = 0
  · omega
  · have hlast := (hset (n - 1) (by omega)).1
    omega

theorem hasAll_nil : HasAll n [] ↔ n = 0 := by
  unfold HasAll
  simp only [List.length_nil]
  exact ⟨fun h => by omega, fun h => ⟨by omega, fun i hi => by omega⟩⟩

/-- Only on an empty vector the arithmetic does not fit: there is no last byte. -/
theorem noWrap_iff (p : Profile) (hv : v.length < 2 ^ 32) : NoWrap p v ↔ v ≠ [] := by
  constructor
  · intro h hnil
    obtain ⟨last, lastIdx, -, -, hidx⟩ := h
    rw [hnil, List.length_nil] at hidx
    omega
  · intro hne
    have hpos := List.length_pos_iff.mpr hne
    exact ⟨v.length - 1, (v.length - 1) * 8, p.sub_of_le hpos, p.mul_of_lt (by omega), by omega⟩

/-- **The seed test is exact, and its arithmetic fits, on these vectors and on no
others.** -/
theorem is_seed_exact_iff (p : Profile) (n : Nat) (v : List UInt8) (hv : v.length + 1 < 2 ^ 32) :
    (isSeed p n v = some (decide (HasAll n v)) ∧ NoWrap p v) ↔ SeedReadable n v := by
  unfold SeedReadable
  rw [noWrap_iff p (by omega), and_comm]
  refine and_congr_right fun hne => ?_
  by_cases hfull : LeadingFull v
  · rw [isSeed_leadingFull_iff p n hfull hne (by omega)]
    constructor
    · intro h
      rcases h with ⟨hgap, hlast⟩ | ⟨hgap, hlen⟩
      · exact Or.inl ⟨hgap, Or.inl hlast⟩
      · exact Or.inr ⟨hgap, hfull, hlen⟩
    · intro h
      rcases h with ⟨hgap, hlast⟩ | ⟨hgap, -, hlen⟩
      · exact Or.inl ⟨hgap, hlast.resolve_right fun h => h hfull⟩
      · exact Or.inr ⟨hgap, hlen⟩
  · -- a byte before the last is not full
    have hfalse : isSeed p n v = some false :=
      if_pos (Decidable.not_not.mp fun h => hfull (leadingFull_iff.mpr h))
    rw [hfalse, Option.some.injEq, eq_comm, decide_eq_false_iff_not,
      hasAll_of_not_leadingFull hfull, not_not]
    constructor
    · exact fun hgap => Or.inl ⟨hgap, Or.inr hfull⟩
    · intro h
      rcases h with ⟨hgap, -⟩ | ⟨-, h, -⟩
      · exact hgap
      · exact absurd h hfull

/-- A vector of two bytes for eleven pieces. -/
theorem is_seed_exact_iff_eleven :
    (isSeed .dev 11 [0b11111111, 0b11000000] =
        some (decide (HasAll 11 [0b11111111, 0b11000000])) ∧
      NoWrap .dev [0b11111111, 0b11000000]) ↔ SeedReadable 11 [0b11111111, 0b11000000] :=
  is_seed_exact_iff .dev 11 [0b11111111, 0b11000000] (by decide)

/-- An empty vector panics, or wraps around and is taken for a seed's, a short one
panics, and a long one is refused for its padding. -/
theorem odd_lengths_misread :
    isSeed .dev 8 [] = none ∧ isSeed .release 8 [] = some true ∧ ¬ HasAll 8 [] ∧
    (∀ p, isSeed p 16 [255] = none) ∧
    ∀ p, isSeed p 8 [255, 254, 0] = some false ∧ HasAll 8 [255, 254, 0] := by
  refine ⟨by decide, by decide, by decide, fun p => ?_, fun p => ⟨?_, by decide⟩⟩
  · cases p <;> decide
  · cases p <;> decide

end IsSeed

end BitTorrent
