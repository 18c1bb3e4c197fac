import BitTorrent.Bencode.MetaInfo
import BitTorrent.Lib.Tiling
import Mathlib.Algebra.Order.Floor.Div

/-!
# The pieces tile the file

`Info.Tiled` is what the download relies on: `total_length()`, `num_pieces()` and
`get_piece_length(i)` return, and the pieces they describe follow one another
from the first byte of the file to the last. `pieces_tile` says when: for every
file of at most `2 ^ 63 - 1` bytes whose pieces can be numbered in a `u32`, also
when it is shorter than a piece or an exact multiple of the piece length.

The number of pieces is the length divided by the piece length, rounded up
(`ceilDiv_eq_iff`). All pieces but the last have the piece length, and the last one
has what is left (`pieceLen_next`), which is never nothing. `Tiles` of `Lib.Tiling`
then gives what is used of it: every offset is in one piece, no two pieces overlap,
and their lengths add up.

Both builds are covered. With overflow checks the sums have to fit, without them
they have to be the same as if they did, and the bounds of `pieces_tile` give both.
-/

namespace BitTorrent

/-- The bytes of the download, on unbounded numbers. -/
def DownloadType.total : DownloadType → Nat
  | .singleFile length => length
  | .multiFile files => files.foldr (fun f n => f.length + n) 0

/-- The torrent has `n` pieces, the piece `i` has `len i` bytes, and they tile
the file. -/
structure Info.Tiled (p : Profile) (info : Info) (length n : Nat) (len : Nat → Nat) : Prop where
  total : info.totalLength p = some length
  count : info.numPieces p = some n
  piece : ∀ i, i < n → info.getPieceLength p i = some (len i)
  tiles : Tiles 0 ((List.range n).map fun i => (i * info.pieceLength, len i)) length

/-! ## The length of the file -/

/-- The sum over the files does not overflow on the way, if it does not in the end. -/
theorem foldlM_length (p : Profile) (files : List File) :
    ∀ acc, acc + files.foldr (fun f n => f.length + n) 0 < 2 ^ 64 →
      files.foldlM (fun len f => p.add 64 len f.length) acc =
        some (acc + files.foldr (fun f n => f.length + n) 0) := by
  induction files with
  | nil => intro acc _; rfl
  | cons f files ih =>
    intro acc h
    rw [List.foldr_cons] at h
    rw [List.foldlM_cons, p.add_of_lt (by omega), Option.bind_eq_bind, Option.bind_some,
      ih _ (by omega), List.foldr_cons, Nat.add_assoc]

/-- `DownloadType::len` is the sum of the lengths when that is a `u64`. -/
theorem DownloadType.len_eq {d : DownloadType} (p : Profile) (h : d.total < 2 ^ 64) :
    d.len p = some d.total := by
  cases d with
  | singleFile length => rfl
  | multiFile files =>
    have hsum := foldlM_length p files 0 (by rw [Nat.zero_add]; exact h)
    rw [Nat.zero_add] at hsum
    exact hsum

/-! ## The partition -/

section Partition

variable {p : Profile} {info : Info} {length : Nat}

/-- The piece `i` of a file of this length. -/
def Info.pieceLen (info : Info) (length i : Nat) : Nat :=
  min info.pieceLength (length - i * info.pieceLength)

/-- Division rounded up, by its two bounds. -/
theorem ceilDiv_eq_iff {a b n : Nat} (hb : 0 < b) : a ⌈/⌉ b = n ↔ a ≤ n * b ∧ n * b < a + b := by
  constructor
  · intro h
    have hle : a ≤ b * (a ⌈/⌉ b) := (ceilDiv_le_iff_le_mul hb).mp (Nat.le_refl _)
    rw [h, Nat.mul_comm] at hle
    refine ⟨hle, ?_⟩
    by_contra hge
    -- one piece less would do
    obtain ⟨m, rfl⟩ : ∃ m, n = m + 1 := ⟨n - 1, by
      have : n ≠ 0 := fun h0 => by rw [h0, Nat.zero_mul] at hge; omega
      omega⟩
    rw [Nat.add_mul, Nat.one_mul] at hge
    have hless : a ⌈/⌉ b ≤ m := (ceilDiv_le_iff_le_mul hb).mpr (by rw [Nat.mul_comm]; omega)
    omega
  · intro ⟨hle, hlt⟩
    refine Nat.le_antisymm ((ceilDiv_le_iff_le_mul hb).mpr (by rw [Nat.mul_comm]; exact hle)) ?_
    by_contra hless
    have hmul : a ≤ b * (a ⌈/⌉ b) := (ceilDiv_le_iff_le_mul hb).mp (Nat.le_refl _)
    have hgrow : (a ⌈/⌉ b + 1) * b ≤ n * b := Nat.mul_le_mul_right b (by omega)
    rw [Nat.add_mul, Nat.one_mul, Nat.mul_comm] at hgrow
    omega

/-- Every piece but the last is a full one, and the last ends the file. -/
theorem pieceLen_next (info : Info) (length i : Nat) :
    min (i * info.pieceLength) length + info.pieceLen length i =
      min ((i + 1) * info.pieceLength) length := by
  unfold Info.pieceLen
  rw [Nat.add_mul, Nat.one_mul]
  omega

/-- Every piece begins before the end. -/
theorem begin_lt_length (hpos : 0 < info.pieceLength) {i : Nat}
    (hi : i < length ⌈/⌉ info.pieceLength) : i * info.pieceLength < length := by
  have hcount := ((ceilDiv_eq_iff hpos).mp rfl : length ≤ _ ∧ _).2
  have hmul : (i + 1) * info.pieceLength ≤ length ⌈/⌉ info.pieceLength * info.pieceLength :=
    Nat.mul_le_mul_right _ hi
  rw [Nat.add_mul, Nat.one_mul] at hmul
  omega

/-- The pieces, of the length that is left for each, lie end to end from 0 to the
length. -/
theorem tiles_pieces (hpos : 0 < info.pieceLength) :
    Tiles 0 ((List.range (length ⌈/⌉ info.pieceLength)).map fun i =>
      (i * info.pieceLength, info.pieceLen length i)) length := by
  have hrange := @tiles_range (fun i => min (i * info.pieceLength) length) (info.pieceLen length)
    (length ⌈/⌉ info.pieceLength) fun i _ => pieceLen_next info length i
  have hend := ((ceilDiv_eq_iff hpos).mp rfl : length ≤ length ⌈/⌉ info.pieceLength * _ ∧ _).1
  rw [Nat.zero_mul, Nat.zero_min, Nat.min_eq_right hend] at hrange
  refine cast (congrArg (Tiles 0 · length) (List.map_congr_left fun i hi => ?_)) hrange
  -- a piece begins inside the file
  rw [Nat.min_eq_left (Nat.le_of_lt (begin_lt_length hpos (List.mem_range.mp hi)))]

/-- `num_pieces` rounds up, when the sum in it does not overflow. -/
theorem numPieces_of_lt (hlen : info.downloadType.len p = some length)
    (hpos : 0 < info.pieceLength) (hsum : length + info.pieceLength < 2 ^ 64) :
    info.numPieces p = some (asU32 (length ⌈/⌉ info.pieceLength)) := by
  unfold Info.numPieces
  rw [hlen, Option.bind_eq_bind, Option.bind_some, p.add_of_lt hsum, Option.bind_some,
    p.sub_of_le (by omega), Option.bind_some, if_neg (by omega), Nat.ceilDiv_eq_add_pred_div]

/-- `get_piece_length` returns what is left for the piece, when the piece length is
a `u32`. -/
theorem getPieceLength_of_lt (hlen : info.downloadType.len p = some length)
    (hlt : info.pieceLength < 2 ^ 32) {i : Nat} (hi : i * info.pieceLength ≤ length) :
    info.getPieceLength p i = some (info.pieceLen length i) := by
  unfold Info.getPieceLength Info.pieceLen
  rw [hlen, Option.bind_eq_bind, Option.bind_some]
  by_cases hlast : i * info.pieceLength + info.pieceLength > length
  · rw [if_pos hlast, p.sub_of_le hi, Option.bind_some, if_pos (by omega)]
    congr 1
    omega
  · rw [if_neg hlast]
    congr 1
    omega

/-- **The pieces tile the file.** -/
theorem pieces_tile (p : Profile) (info : Info) (hpos : 1 ≤ info.pieceLength)
    (hlt : info.pieceLength < 2 ^ 32) (htotal : info.downloadType.total ≤ 2 ^ 63 - 1)
    (hcount : info.downloadType.total ⌈/⌉ info.pieceLength ≤ 2 ^ 32 - 1) :
    ∃ len, info.Tiled p info.downloadType.total (info.downloadType.total ⌈/⌉ info.pieceLength) len ∧
      spanned ((List.range (info.downloadType.total ⌈/⌉ info.pieceLength)).map fun i =>
        (i * info.pieceLength, len i)) = info.downloadType.total ∧
      ∀ i, i < info.downloadType.total ⌈/⌉ info.pieceLength →
        1 ≤ len i ∧ len i ≤ info.pieceLength ∧ i * info.pieceLength ≤ info.downloadType.total ∧
        ∀ v new : List UInt8, v.length = info.downloadType.total →
          splice v (i * info.pieceLength) (i * info.pieceLength + len i) new ≠ none := by
  have hlen := DownloadType.len_eq p (show info.downloadType.total < 2 ^ 64 by omega)
  have htiles := @tiles_pieces info info.downloadType.total hpos
  refine ⟨info.pieceLen info.downloadType.total, ⟨hlen, ?_, ?_, htiles⟩, ?_, ?_⟩
  · rw [numPieces_of_lt hlen hpos (by omega), asU32_of_lt (by omega)]
  · intro i hi
    exact getPieceLength_of_lt hlen hlt (Nat.le_of_lt (begin_lt_length hpos hi))
  · have hsum := htiles.spanned_eq
    rwa [Nat.zero_add] at hsum
  · intro i hi
    have hbegin := begin_lt_length hpos hi
    have hend := (htiles.mem (List.mem_map.mpr ⟨i, List.mem_range.mpr hi, rfl⟩)).2
    refine ⟨?_, Nat.min_le_left _ _, Nat.le_of_lt hbegin, ?_⟩
    · unfold Info.pieceLen
      omega
    · intro v new hv
      rw [splice_of_le (Nat.le_add_right _ _) (by rw [hv]; exact hend)]
      exact Option.some_ne_none _

/-- Twenty bytes in pieces of sixteen. -/
def twentyBytes : Info where
  name := "twenty"
  pieceLength := 16
  pieces := [Vector.replicate 20 0, Vector.replicate 20 1]
  downloadType := .multiFile [⟨13, ["a"]⟩, ⟨0, ["b"]⟩, ⟨7, ["c"]⟩]

theorem pieces_tile_twenty : ∃ len, twentyBytes.Tiled .dev 20 2 len :=
  (pieces_tile .dev twentyBytes (by decide) (by decide) (by decide) (by decide)).imp
    fun _ h => h.1

end Partition

end BitTorrent
