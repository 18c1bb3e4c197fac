import BitTorrent.Lib.Bits
import BitTorrent.Lib.Machine

/-!
# The shared bitfield (`download/bitfield.rs`)

`Bitfield` records which pieces are owned and hands out the next piece to
download. All downloaders share one behind a mutex, so a call is atomic.

A call ends in one of three ways, `Exit`: it returns, it panics on an index out
of bounds, or its loop is still running after the rounds it was given. A panic
leaves the fields as they are at that moment (the mutex is not poisoned and the
other tasks go on with them), so every call yields the bitfield it leaves behind
next to its exit.

The invariant `Inv` is kept by every call. Its two clauses that later results
rest on: `confirmed` is the least piece that is not owned (so the loop of
`pick_piece` always meets one), and the padding bits are `0` (so `remaining`
may count bits, and the loop of `set` stops at `total_pieces` when there is
padding at all).

* `set_spec` — what `set` leaves behind, and the one case in which it panics;
* `pickPiece_spec` — what `pick_piece` returns and where it leaves the cursor.
-/

namespace BitTorrent

/-- How a call on the bitfield ends. -/
inductive Exit (α : Type)
  | returned (a : α)
  | panicked
  | spinning
  deriving DecidableEq, Repr

/-- `Bitfield`, with the `Vec<u8>` as a list. -/
structure Bitfield where
  pieceOwnership : List UInt8
  totalPieces : Nat
  cur : Nat
  confirmed : Nat
  deriving DecidableEq, Repr

/-- The byte that holds the bit of a piece, and the bit's place in it. -/
def pieceBucketOffset (pieceIdx : Nat) : Nat × UInt8 :=
  (pieceIdx / 8, UInt8.ofNat (7 - pieceIdx % 8))

namespace Bitfield

/-- `Bitfield::zero`. -/
def zero (numPieces : Nat) : Bitfield where
  pieceOwnership := List.replicate ((numPieces + 7) / 8) 0
  totalPieces := numPieces
  cur := 0
  confirmed := 0

/-- `none` is the index panic. -/
def has (b : Bitfield) (pieceIdx : Nat) : Option Bool :=
  let (bucket, offset) := pieceBucketOffset pieceIdx
  b.pieceOwnership[bucket]?.map fun byte => testMask byte offset

/-- The loop of `set` that advances `confirmed`. -/
def advance : Nat → Bitfield → Bitfield × Exit Unit
  | 0, b => (b, .spinning)
  | rounds + 1, b =>
    match b.has (asU32 b.confirmed) with
    | none => (b, .panicked)
    | some false => (b, .returned ())
    | some true => advance rounds { b with confirmed := b.confirmed + 1 }

/-- `Bitfield::set`. The loop is given a round for each bit, and one more. -/
def set (b : Bitfield) (pieceIdx : Nat) : Bitfield × Exit Unit :=
  let (bucket, offset) := pieceBucketOffset pieceIdx
  match b.pieceOwnership[bucket]? with
  | none => (b, .panicked)
  | some byte =>
    let b := { b with pieceOwnership := b.pieceOwnership.set bucket (orMask byte offset) }
    if b.confirmed = pieceIdx then
      advance (8 * b.pieceOwnership.length + 1) { b with confirmed := b.confirmed + 1 }
    else (b, .returned ())

/-- The loop of `pick_piece`. -/
def pickLoop : Nat → Bitfield → Bitfield × Exit (Option Nat)
  | 0, b => (b, .spinning)
  | rounds + 1, b =>
    if b.confirmed < b.totalPieces then
      let bitIndex := asU32 b.cur
      let b := { b with cur := b.cur + 1 }
      let b := if b.cur = b.totalPieces then { b with cur := b.confirmed } else b
      match b.has bitIndex with
      | none => (b, .panicked)
      | some false => (b, .returned (some bitIndex))
      | some true => pickLoop rounds b
    else (b, .returned none)

/-- Twice round the bitfield is more than the loop ever needs (`pickPiece_spec`). -/
def pickPiece (b : Bitfield) : Bitfield × Exit (Option Nat) :=
  if b.totalPieces ≤ b.cur ∧ b.totalPieces ≤ b.confirmed then (b, .returned none)
  else pickLoop (2 * b.totalPieces + 1) b

/-- `none` is an overflow, of the count or of the subtraction. -/
def remaining (p : Profile) (b : Bitfield) : Option Nat :=
  (b.pieceOwnership.foldlM (fun acc i => p.add 32 acc (countOnes i)) 0).bind fun numOwned =>
    p.sub 32 (asU32 b.totalPieces) numOwned

/-! ## The invariant -/

/-- Piece `i` is owned. -/
def Owns (b : Bitfield) (i : Nat) : Prop := bitAt b.pieceOwnership i = true

instance (b : Bitfield) (i : Nat) : Decidable (b.Owns i) := inferInstanceAs (Decidable (_ = _))

/-- The pieces that are not owned. -/
def missing (b : Bitfield) : Finset Nat := (Finset.range b.totalPieces).filter fun i => ¬ b.Owns i

/-- The bitfield of a torrent with `n` pieces: the right size, clear padding,
`confirmed` the least piece not owned, and a cursor in range. -/
structure Inv (n : Nat) (b : Bitfield) : Prop where
  length : b.pieceOwnership.length = (n + 7) / 8
  total : b.totalPieces = n
  padding : ∀ i, n ≤ i → ¬ b.Owns i
  confirmed_le : b.confirmed ≤ n
  owned : ∀ i, i < b.confirmed → b.Owns i
  unowned : ¬ b.Owns b.confirmed
  cur_lt : 0 < n → b.cur < n

section Inv

variable {n : Nat} {b : Bitfield}

theorem zero_owns (n i : Nat) : ¬ (zero n).Owns i := by
  unfold Owns zero
  rw [bitAt_replicate_zero]
  exact Bool.false_ne_true

/-- The new bitfield is well formed. -/
theorem inv_zero (n : Nat) : Inv n (zero n) where
  length := List.length_replicate
  total := rfl
  padding := fun i _ => zero_owns n i
  confirmed_le := Nat.zero_le _
  owned := fun _ h => absurd h (Nat.not_lt_zero _)
  unowned := zero_owns n 0
  cur_lt := fun h => h

/-- A piece is missing when it is a piece of the torrent that is not owned. -/
theorem mem_missing (h : Inv n b) {i : Nat} : i ∈ b.missing ↔ i < n ∧ ¬ b.Owns i := by
  rw [missing, Finset.mem_filter, Finset.mem_range, h.total]

/-- Every owned position lies inside the bitfield. -/
theorem Inv.lt_of_owns (h : Inv n b) {i : Nat} (hi : b.Owns i) : i < n := by
  by_contra hge
  exact h.padding i (Nat.le_of_not_lt hge) hi

theorem Inv.confirmed_le_of_not_owns (h : Inv n b) {i : Nat} (hi : ¬ b.Owns i) :
    b.confirmed ≤ i := by
  by_contra hlt
  exact hi (h.owned i (Nat.lt_of_not_le hlt))

/-- The lazily advanced prefix pointer tells whether everything is owned. -/
theorem Inv.confirmed_eq_iff (h : Inv n b) : b.confirmed = n ↔ ∀ i, i < n → b.Owns i := by
  refine ⟨fun hc i hi => h.owned i (hc ▸ hi), fun hall => ?_⟩
  by_contra hne
  exact h.unowned (hall b.confirmed (Nat.lt_of_le_of_ne h.confirmed_le hne))

/-- Inside the bytes, `has` reads the bit. -/
theorem has_eq_some {i : Nat} (hi : i < 8 * b.pieceOwnership.length) :
    b.has i = some (decide (b.Owns i)) := by
  have hb : i / 8 < b.pieceOwnership.length := by omega
  unfold has pieceBucketOffset
  simp only [List.getElem?_eq_getElem hb, Option.map_some]
  have hbit : byteBit b.pieceOwnership[i / 8] (7 - i % 8) = bitAt b.pieceOwnership i := by
    rw [bitAt, List.getElem?_eq_getElem hb, Option.getD_some]
  rw [testMask_eq (show 7 - i % 8 < 8 by omega), hbit]
  refine congrArg some (Bool.eq_iff_iff.mpr ?_)
  rw [decide_eq_true_iff]
  exact Iff.rfl

theorem has_eq_none {i : Nat} (hi : 8 * b.pieceOwnership.length ≤ i) : b.has i = none := by
  unfold has pieceBucketOffset
  simp only [List.getElem?_eq_none (show b.pieceOwnership.length ≤ i / 8 by omega),
    Option.map_none]

theorem Inv.has_eq (h : Inv n b) {i : Nat} (hi : i < n) : b.has i = some (decide (b.Owns i)) :=
  has_eq_some (by rw [h.length]; omega)

end Inv

/-! ## `remaining` -/

/-- The sum of the ones does not overflow on the way, if it does not in the end. -/
theorem foldlM_countOnes (p : Profile) (v : List UInt8) :
    ∀ acc, acc + ones v < 2 ^ 32 →
      v.foldlM (fun acc i => p.add 32 acc (countOnes i)) acc = some (acc + ones v) := by
  induction v with
  | nil => intro acc _; rfl
  | cons x v ih =>
    intro acc h
    rw [ones_cons] at h ⊢
    rw [List.foldlM_cons, p.add_of_lt (by omega), Option.bind_eq_bind, Option.bind_some,
      ih _ (by omega), Nat.add_assoc]

/-- The ones are the pieces that are owned: the padding has none. -/
theorem Inv.ones_eq {n : Nat} {b : Bitfield} (h : Inv n b) :
    ones b.pieceOwnership = ((Finset.range n).filter fun i => b.Owns i).card := by
  rw [ones_eq_card]
  congr 1
  ext i
  simp only [Finset.mem_filter, Finset.mem_range]
  refine ⟨fun ⟨_, hi⟩ => ⟨h.lt_of_owns hi, hi⟩, fun ⟨_, hi⟩ => ⟨lt_of_bitAt hi, hi⟩⟩

theorem Inv.card_missing {n : Nat} {b : Bitfield} (h : Inv n b) :
    b.missing.card + ones b.pieceOwnership = n := by
  rw [h.ones_eq, missing, h.total, Nat.add_comm,
    Finset.card_filter_add_card_filter_not (fun i => b.Owns i), Finset.card_range]

/-- `remaining` is the number of missing pieces, and nothing overflows. -/
theorem Inv.remaining_eq {n : Nat} {b : Bitfield} (h : Inv n b) (hn : n < 2 ^ 32) (p : Profile) :
    b.remaining p = some b.missing.card := by
  have hcard := h.card_missing
  rw [remaining, foldlM_countOnes p _ 0 (by omega), Option.bind_some, h.total, asU32_of_lt hn,
    p.sub_of_le (by omega)]
  congr 1
  omega

/-! ## `set` -/

section Set

variable {n : Nat}

/-- The advance loop stops at the least piece that is not owned, or runs into
the end of the bitfield when every piece is owned and there is no padding. -/
theorem advance_spec (hn : n < 2 ^ 32) :
    ∀ (rounds : Nat) {b : Bitfield}, b.pieceOwnership.length = (n + 7) / 8 →
      (∀ i, n ≤ i → ¬ b.Owns i) → b.confirmed ≤ n → (∀ i, i < b.confirmed → b.Owns i) →
      n - b.confirmed < rounds →
      ∃ m, b.confirmed ≤ m ∧ m ≤ n ∧ (∀ i, i < m → b.Owns i) ∧ ¬ b.Owns m ∧
        advance rounds b = ({ b with confirmed := m },
          if m = n ∧ n % 8 = 0 then .panicked else .returned ()) := by
  intro rounds
  induction rounds with
  | zero => intro b _ _ _ _ h; exact absurd h (Nat.not_lt_zero _)
  | succ rounds ih =>
    intro b hlen hpad hle howned hrounds
    by_cases hfull : b.confirmed = n ∧ n % 8 = 0
    · -- every piece is owned and the next position is past the last byte
      refine ⟨n, hle, Nat.le_refl n, fun i hi => howned i (hfull.1 ▸ hi),
        hpad n (Nat.le_refl n), ?_⟩
      have hnone : b.has (asU32 b.confirmed) = none := by
        rw [asU32_of_lt (by omega)]
        exact has_eq_none (by rw [hlen]; omega)
      unfold advance
      rw [hnone, if_pos ⟨rfl, hfull.2⟩, ← hfull.1]
    · have hsome : b.has (asU32 b.confirmed) = some (decide (b.Owns b.confirmed)) := by
        rw [asU32_of_lt (by omega)]
        exact has_eq_some (by rw [hlen]; omega)
      unfold advance
      rw [hsome]
      by_cases hown : b.Owns b.confirmed
      · rw [decide_eq_true hown]
        have hlt : b.confirmed < n := by
          by_contra hge
          exact hpad b.confirmed (Nat.le_of_not_lt hge) hown
        have howned' : ∀ i, i < b.confirmed + 1 → b.Owns i := by
          intro i hi
          rcases Nat.lt_succ_iff_lt_or_eq.mp hi with h | rfl
          · exact howned i h
          · exact hown
        obtain ⟨m, hm, hmn, hall, hun, heq⟩ := ih (b := { b with confirmed := b.confirmed + 1 })
          hlen hpad hlt howned' (by show n - (b.confirmed + 1) < rounds; omega)
        exact ⟨m, Nat.le_of_succ_le hm, hmn, hall, hun, heq⟩
      · rw [decide_eq_false hown]
        refine ⟨b.confirmed, Nat.le_refl _, hle, howned, hown, ?_⟩
        rw [if_neg hfull]

/-- What `set` does: it owns the piece, keeps the invariant and the cursor, and
returns, unless it advances `confirmed` to the end of a bitfield without
padding. -/
theorem set_spec {b : Bitfield} (h : Inv n b) (hn : n < 2 ^ 32) {i : Nat} (hi : i < n) :
    ∃ b', Inv n b' ∧ (∀ j, b'.Owns j ↔ b.Owns j ∨ j = i) ∧ b'.cur = b.cur ∧
      b.set i = (b', if b.confirmed = i ∧ b'.confirmed = n ∧ n % 8 = 0
        then .panicked else .returned ()) := by
  have hlt : i < 8 * b.pieceOwnership.length := by rw [h.length]; omega
  have hbyte : i / 8 < b.pieceOwnership.length := by omega
  have hset : b.pieceOwnership.set (i / 8)
      (orMask b.pieceOwnership[i / 8] (UInt8.ofNat (7 - i % 8))) = setBit b.pieceOwnership i := by
    rw [setBit, List.modify_eq_set_getElem?, List.getElem?_eq_getElem hbyte]
    rfl
  have hset' : b.set i =
      if b.confirmed = i then
        advance (8 * (setBit b.pieceOwnership i).length + 1)
          { b with pieceOwnership := setBit b.pieceOwnership i, confirmed := b.confirmed + 1 }
      else ({ b with pieceOwnership := setBit b.pieceOwnership i }, .returned ()) := by
    unfold set pieceBucketOffset
    simp only [List.getElem?_eq_getElem hbyte, hset]
  have howns : ∀ j, bitAt (setBit b.pieceOwnership i) j = true ↔ b.Owns j ∨ j = i := by
    intro j
    rw [bitAt_setBit hlt, Bool.or_eq_true, decide_eq_true_iff]
    exact Iff.rfl
  have hlen : (setBit b.pieceOwnership i).length = (n + 7) / 8 := by
    rw [length_setBit, h.length]
  have hpad : ∀ j, n ≤ j → ¬ bitAt (setBit b.pieceOwnership i) j = true := by
    intro j hj hown
    rcases (howns j).mp hown with h1 | h1
    · exact h.padding j hj h1
    · omega
  by_cases hc : b.confirmed = i
  · -- the pieces up to and including the one just set are owned
    have hprefix : ∀ j, j < b.confirmed + 1 → bitAt (setBit b.pieceOwnership i) j = true := by
      intro j hj
      rcases Nat.lt_succ_iff_lt_or_eq.mp hj with h1 | h1
      · exact (howns j).mpr (Or.inl (h.owned j h1))
      · exact (howns j).mpr (Or.inr (h1.trans hc))
    -- `confirmed` moves on to the next missing piece
    obtain ⟨m, hm, hmn, hall, hun, heq⟩ := advance_spec hn
      (8 * (setBit b.pieceOwnership i).length + 1)
      (b := { b with pieceOwnership := setBit b.pieceOwnership i, confirmed := b.confirmed + 1 })
      hlen hpad (by show b.confirmed + 1 ≤ n; omega) hprefix
      (by show n - (b.confirmed + 1) < _; rw [hlen]; omega)
    refine ⟨{ b with pieceOwnership := setBit b.pieceOwnership i, confirmed := m },
      ⟨hlen, h.total, hpad, hmn, hall, hun, h.cur_lt⟩, howns, rfl, ?_⟩
    rw [hset', if_pos hc, heq]
    simp only [hc, true_and]
  · refine ⟨{ b with pieceOwnership := setBit b.pieceOwnership i },
      ⟨hlen, h.total, hpad, h.confirmed_le, fun j hj => (howns j).mpr (Or.inl (h.owned j hj)),
        fun hown => ?_, h.cur_lt⟩, howns, rfl, ?_⟩
    · rcases (howns b.confirmed).mp hown with h1 | h1
      · exact h.unowned h1
      · exact hc h1
    · rw [hset', if_neg hc, if_neg fun h1 => hc h1.1]

/-- Every other piece is owned, and there is no padding. -/
def Closes (b : Bitfield) (i : Nat) : Prop :=
  b.totalPieces % 8 = 0 ∧ ∀ j, j < b.totalPieces → j ≠ i → b.Owns j

instance (b : Bitfield) (i : Nat) : Decidable (b.Closes i) :=
  inferInstanceAs (Decidable (_ ∧ ∀ j, j < _ → _))

/-- `set` panics exactly when it completes a bitfield without padding. -/
theorem set_panics_iff {b : Bitfield} (h : Inv n b) (hn : n < 2 ^ 32) {i : Nat} (hi : i < n) :
    (b.set i).2 = .panicked ↔
      n % 8 = 0 ∧ ¬ b.Owns i ∧ ∀ j, j < n → j ≠ i → b.Owns j := by
  obtain ⟨b', h', howns, -, heq⟩ := set_spec h hn hi
  have hex : (b.set i).2 = .panicked ↔ b.confirmed = i ∧ b'.confirmed = n ∧ n % 8 = 0 := by
    rw [heq]
    by_cases hc : b.confirmed = i ∧ b'.confirmed = n ∧ n % 8 = 0
    · rw [if_pos hc]; exact ⟨fun _ => hc, fun _ => rfl⟩
    · rw [if_neg hc]; exact ⟨(nomatch ·), fun h1 => absurd h1 hc⟩
  rw [hex]
  constructor
  · intro hp
    obtain ⟨hc, hc', h8⟩ := hp
    refine ⟨h8, hc ▸ h.unowned, fun j hj hne => ?_⟩
    rcases (howns j).mp (h'.confirmed_eq_iff.mp hc' j hj) with h1 | h1
    · exact h1
    · exact absurd h1 hne
  · intro hp
    obtain ⟨h8, hun, hall⟩ := hp
    have hc : b.confirmed = i := by
      by_contra hne
      have hle := h.confirmed_le_of_not_owns hun
      exact h.unowned (hall b.confirmed (by omega) hne)
    refine ⟨hc, h'.confirmed_eq_iff.mpr fun j hj => (howns j).mpr ?_, h8⟩
    by_cases hji : j = i
    · exact Or.inr hji
    · exact Or.inl (hall j hj hji)

/-- `set` panics exactly when it brings the last piece and there is no padding to
stop at. -/
theorem set_panics_iff_closes {b : Bitfield} (h : Inv n b) (hn : n < 2 ^ 32)
    {i : Nat} (hi : i < n) :
    (b.set i).2 = .panicked ↔ ¬ b.Owns i ∧ b.Closes i := by
  rw [set_panics_iff h hn hi, Closes, h.total]
  exact and_left_comm

theorem inv_set {b : Bitfield} (h : Inv n b) (hn : n < 2 ^ 32) {i : Nat} (hi : i < n) :
    Inv n (b.set i).1 := by
  obtain ⟨b', h', -, -, heq⟩ := set_spec h hn hi
  rw [heq]
  exact h'

/-- `set` owns the piece and leaves the others alone, also when it panics. -/
theorem owns_set {b : Bitfield} (h : Inv n b) (hn : n < 2 ^ 32) {i : Nat} (hi : i < n) (j : Nat) :
    (b.set i).1.Owns j ↔ b.Owns j ∨ j = i := by
  obtain ⟨b', -, howns, -, heq⟩ := set_spec h hn hi
  rw [heq]
  exact howns j

theorem cur_set {b : Bitfield} (h : Inv n b) (hn : n < 2 ^ 32) {i : Nat} (hi : i < n) :
    (b.set i).1.cur = b.cur := by
  obtain ⟨b', -, -, hcur, heq⟩ := set_spec h hn hi
  rw [heq]
  exact hcur

/-- A call of `set` that does not panic returns: the loop never runs on. -/
theorem set_returned {b : Bitfield} (h : Inv n b) (hn : n < 2 ^ 32) {i : Nat} (hi : i < n)
    (hp : (b.set i).2 ≠ .panicked) : (b.set i).2 = .returned () := by
  obtain ⟨b', -, -, -, heq⟩ := set_spec h hn hi
  rw [heq] at hp ⊢
  split at hp
  next => exact absurd rfl hp
  next hc => exact if_neg hc

/-- Bitfields that own the same pieces agree on everything but the cursor. -/
theorem Inv.confirmed_congr {b b' : Bitfield} (h : Inv n b) (h' : Inv n b')
    (howns : ∀ j, b'.Owns j ↔ b.Owns j) : b'.confirmed = b.confirmed :=
  Nat.le_antisymm (h'.confirmed_le_of_not_owns fun h1 => h.unowned ((howns _).mp h1))
    (h.confirmed_le_of_not_owns fun h1 => h'.unowned ((howns _).mpr h1))

theorem Inv.missing_congr {b b' : Bitfield} (h : Inv n b) (h' : Inv n b')
    (howns : ∀ j, b'.Owns j ↔ b.Owns j) : b'.missing = b.missing := by
  ext i
  rw [mem_missing h, mem_missing h', howns]

end Set

/-! ## `pick_piece` -/

section Pick

variable {n : Nat}

/-- The cursor after piece `m` was handed out. -/
def nextCur (b : Bitfield) (m : Nat) : Nat := if m + 1 = b.totalPieces then b.confirmed else m + 1

/-- One round of the loop, at a cursor in range. -/
theorem pickLoop_succ {b : Bitfield} (h : Inv n b) (hn : n < 2 ^ 32) (hlt : b.confirmed < n)
    (rounds : Nat) :
    pickLoop (rounds + 1) b =
      if b.Owns b.cur then pickLoop rounds { b with cur := nextCur b b.cur }
      else ({ b with cur := nextCur b b.cur }, .returned (some b.cur)) := by
  have hcur : b.cur < n := h.cur_lt (by omega)
  have hhas : ∀ c, ({ b with cur := c } : Bitfield).has b.cur = some (decide (b.Owns b.cur)) :=
    fun _ => h.has_eq hcur
  have hstep : (if b.cur + 1 = b.totalPieces then { b with cur := b.confirmed }
      else { b with cur := b.cur + 1 } : Bitfield) = { b with cur := nextCur b b.cur } := by
    unfold nextCur
    split <;> rfl
  rw [pickLoop, if_pos (by rw [h.total]; exact hlt)]
  simp only [asU32_of_lt (show b.cur < 2 ^ 32 by omega), hstep, hhas]
  by_cases hown : b.Owns b.cur
  · rw [if_pos hown, decide_eq_true hown]
  · rw [if_neg hown, decide_eq_false hown]

theorem Inv.setCur {b : Bitfield} (h : Inv n b) {c : Nat} (hc : c < n) :
    Inv n { b with cur := c } :=
  ⟨h.length, h.total, h.padding, h.confirmed_le, h.owned, h.unowned, fun _ => hc⟩

/-- The next place of the cursor is a piece. -/
theorem Inv.nextCur_lt {b : Bitfield} (h : Inv n b) (hlt : b.confirmed < n) {m : Nat}
    (hm : m < n) : nextCur b m < n := by
  unfold nextCur
  rw [h.total]
  split
  · exact hlt
  · omega

/-- From a cursor with only owned pieces between it and the missing piece `m`
the loop returns `m`. -/
theorem pickLoop_hit (hn : n < 2 ^ 32) :
    ∀ (d : Nat) {b : Bitfield} {m rounds : Nat}, Inv n b → m < n → ¬ b.Owns m →
      b.cur + d = m → (∀ j, b.cur ≤ j → j < m → b.Owns j) → d < rounds →
      pickLoop rounds b = ({ b with cur := nextCur b m }, .returned (some m)) := by
  intro d
  induction d with
  | zero =>
    intro b m rounds h hm hun hcur _ hrounds
    obtain ⟨r, rfl⟩ := Nat.exists_eq_add_of_lt hrounds
    have hlt := Nat.lt_of_le_of_lt (h.confirmed_le_of_not_owns hun) hm
    rw [Nat.zero_add, pickLoop_succ h hn hlt, show b.cur = m from hcur, if_neg hun]
  | succ d ih =>
    intro b m rounds h hm hun hcur hall hrounds
    obtain ⟨r, rfl⟩ : ∃ r, rounds = r + 1 := ⟨rounds - 1, by omega⟩
    have hlt := Nat.lt_of_le_of_lt (h.confirmed_le_of_not_owns hun) hm
    have hnext : nextCur b b.cur = b.cur + 1 := if_neg (by rw [h.total]; omega)
    rw [pickLoop_succ h hn hlt, if_pos (hall b.cur (Nat.le_refl _) (by omega)), hnext]
    exact ih (h.setCur (by omega)) hm hun (by show b.cur + 1 + d = m; omega)
      (fun j hj hjm => hall j (by simp only at hj; omega) hjm) (by omega)

/-- When every piece from the cursor on is owned, the loop wraps round to
`confirmed`, which is missing, and returns it. -/
theorem pickLoop_wrap (hn : n < 2 ^ 32) :
    ∀ (d : Nat) {b : Bitfield} {rounds : Nat}, Inv n b → b.confirmed < n →
      b.cur + d + 1 = n → (∀ j, b.cur ≤ j → j < n → b.Owns j) → d + 1 < rounds →
      pickLoop rounds b =
        ({ b with cur := nextCur b b.confirmed }, .returned (some b.confirmed)) := by
  intro d
  induction d with
  | zero =>
    intro b rounds h hlt hcur hall hrounds
    obtain ⟨r, rfl⟩ : ∃ r, rounds = r + 1 := ⟨rounds - 1, by omega⟩
    have hnext : nextCur b b.cur = b.confirmed := if_pos (by rw [h.total]; omega)
    rw [pickLoop_succ h hn hlt, if_pos (hall b.cur (Nat.le_refl _) (by omega)), hnext]
    exact pickLoop_hit hn 0 (h.setCur hlt) hlt h.unowned rfl
      (fun j hj hjm => absurd hjm (Nat.not_lt.mpr hj)) (by omega)
  | succ d ih =>
    intro b rounds h hlt hcur hall hrounds
    obtain ⟨r, rfl⟩ : ∃ r, rounds = r + 1 := ⟨rounds - 1, by omega⟩
    have hnext : nextCur b b.cur = b.cur + 1 := if_neg (by rw [h.total]; omega)
    rw [pickLoop_succ h hn hlt, if_pos (hall b.cur (Nat.le_refl _) (by omega)), hnext]
    exact ih (h.setCur (by omega)) hlt (by show b.cur + 1 + d + 1 = n; omega)
      (fun j hj hjn => hall j (by simp only at hj; omega) hjn) (by omega)

/-- A loop that has ended takes no more rounds. -/
theorem pickLoop_add (k : Nat) :
    ∀ (rounds : Nat) (b : Bitfield), (pickLoop rounds b).2 ≠ .spinning →
      pickLoop (rounds + k) b = pickLoop rounds b := by
  intro rounds
  induction rounds with
  | zero => intro b h; exact absurd rfl h
  | succ rounds ih =>
    intro b h
    rw [show rounds + 1 + k = (rounds + k) + 1 by omega]
    unfold pickLoop at h ⊢
    by_cases hlt : b.confirmed < b.totalPieces
    · rw [if_pos hlt] at h ⊢
      rw [if_pos hlt]
      dsimp only at h ⊢
      split
      next => rfl
      next => rfl
      next hhas =>
        rw [hhas] at h
        exact ih _ h
    · rw [if_neg hlt, if_neg hlt]

/-- **What `pick_piece` does.** When everything is owned it returns `None` and
changes nothing. Otherwise it returns a missing piece, the first one from the
cursor on or, when there is none, `confirmed`, and moves only the cursor. -/
theorem pickPiece_spec {b : Bitfield} (h : Inv n b) (hn : n < 2 ^ 32) :
    ((∀ i, i < n → b.Owns i) ∧ b.pickPiece = (b, .returned none)) ∨
    ∃ m, m < n ∧ ¬ b.Owns m ∧
      ((b.cur ≤ m ∧ ∀ j, b.cur ≤ j → j < m → b.Owns j) ∨
       (m = b.confirmed ∧ ∀ j, b.cur ≤ j → j < n → b.Owns j)) ∧
      b.pickPiece = ({ b with cur := nextCur b m }, .returned (some m)) := by
  by_cases hlt : b.confirmed < n
  · right
    have hcur : b.cur < n := h.cur_lt (by omega)
    have hloop : b.pickPiece = pickLoop (2 * n + 1) b := by
      unfold pickPiece
      rw [h.total, if_neg (by omega)]
    rw [hloop]
    by_cases hmiss : ∃ m, b.cur ≤ m ∧ m < n ∧ ¬ b.Owns m
    · have hm := Nat.find_spec hmiss
      have hall : ∀ j, b.cur ≤ j → j < Nat.find hmiss → b.Owns j := by
        intro j hj hjm
        by_contra hun
        exact Nat.find_min hmiss hjm ⟨hj, by omega, hun⟩
      refine ⟨Nat.find hmiss, hm.2.1, hm.2.2, Or.inl ⟨hm.1, hall⟩, ?_⟩
      exact pickLoop_hit hn (Nat.find hmiss - b.cur) h hm.2.1 hm.2.2 (by omega) hall (by omega)
    · have hall : ∀ j, b.cur ≤ j → j < n → b.Owns j := by
        intro j hj hjn
        by_contra hun
        exact hmiss ⟨j, hj, hjn, hun⟩
      exact ⟨b.confirmed, hlt, h.unowned, Or.inr ⟨rfl, hall⟩,
        pickLoop_wrap hn (n - b.cur - 1) h hlt (by omega) hall (by omega)⟩
  · left
    have hc : b.confirmed = n := Nat.le_antisymm h.confirmed_le (Nat.le_of_not_lt hlt)
    refine ⟨h.confirmed_eq_iff.mp hc, ?_⟩
    unfold pickPiece
    split
    next => rfl
    next =>
      unfold pickLoop
      rw [if_neg (by rw [h.total]; exact hlt)]

/-- The loop ends within `2 n + 1` rounds: no greater bound changes the call. -/
theorem pickLoop_of_le {b : Bitfield} (h : Inv n b) (hn : n < 2 ^ 32) {rounds : Nat}
    (hrounds : 2 * n + 1 ≤ rounds) : pickLoop rounds b = b.pickPiece := by
  obtain ⟨k, rfl⟩ := Nat.exists_eq_add_of_le hrounds
  by_cases hend : b.totalPieces ≤ b.cur ∧ b.totalPieces ≤ b.confirmed
  · rw [show 2 * n + 1 + k = (2 * n + k) + 1 by omega]
    unfold pickLoop pickPiece
    rw [if_neg (Nat.not_lt.mpr hend.2), if_pos hend]
  · have hloop : b.pickPiece = pickLoop (2 * n + 1) b := by
      unfold pickPiece
      rw [h.total, if_neg (h.total ▸ hend)]
    rw [hloop]
    refine pickLoop_add k _ b ?_
    rw [← hloop]
    rcases pickPiece_spec h hn with ⟨-, heq⟩ | ⟨m, -, -, -, heq⟩ <;> rw [heq] <;> simp

theorem inv_pickPiece {b : Bitfield} (h : Inv n b) (hn : n < 2 ^ 32) : Inv n b.pickPiece.1 := by
  rcases pickPiece_spec h hn with ⟨-, heq⟩ | ⟨m, hm, hun, -, heq⟩
  · rw [heq]; exact h
  · rw [heq]
    exact h.setCur (h.nextCur_lt (Nat.lt_of_le_of_lt (h.confirmed_le_of_not_owns hun) hm) hm)

theorem owns_pickPiece {b : Bitfield} (h : Inv n b) (hn : n < 2 ^ 32) (j : Nat) :
    b.pickPiece.1.Owns j ↔ b.Owns j := by
  rcases pickPiece_spec h hn with ⟨-, heq⟩ | ⟨m, -, -, -, heq⟩
  · rw [heq]
  · rw [heq]; exact Iff.rfl

end Pick

end Bitfield

end BitTorrent
