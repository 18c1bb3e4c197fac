import BitTorrent.Lib.Machine

/-!
# The torrent's description (`bencode/meta_info.rs`)

`Info` with its three computed numbers: `total_length`, `num_pieces` and
`get_piece_length`. They mix `u32` and `u64`, and each may panic (`none`): on
an overflow when the build checks, on a zero piece length, and on a piece that
does not start inside the file.

A `Torrent` is an `Info` a download can start with: `total_length()` returns,
its bytes can be allocated, and `num_pieces()` does not divide by zero. For its
pieces the computed numbers are the partition of the file (`pieceLen`), and
none of the panics is left (`numPieces_eq`, `getPieceLength_eq`).

Mirroring notes:

* `u32` and `u64` are natural numbers, and every sum, difference and product that
  may overflow names its width (`Lib.Machine`). The casts `as u32` are `asU32`;
* `pieces` is the list of the hashes. A `Digest` is a vector of 20 bytes, so a hash
  always has its length. How the hashes are cut from one string is in
  `Bencode.InfoHash`, with the rest of what serde does;
* the `Torrent` of the source, which has the announce URLs, too, is `MetaInfo` in
  `Bencode.InfoHash`. The download is given the `Info` only;
* the bound `2 ^ 63` of a `Torrent` is `isize::MAX`, above which `vec![0; n]`
  panics.
-/

namespace BitTorrent

/-- A SHA-1 digest, `[u8; 20]`. -/
abbrev Digest := Vector UInt8 20

/-- A file of a multi-file torrent. -/
structure File where
  length : Nat
  path : List String
  deriving DecidableEq, Repr

/-- A torrent is one file of `length` bytes, or a list of files. -/
inductive DownloadType
  | singleFile (length : Nat)
  | multiFile (files : List File)
  deriving DecidableEq, Repr

/-- `DownloadType::len`: the lengths of the files are summed up as `u64`. -/
def DownloadType.len (p : Profile) : DownloadType → Option Nat
  | .singleFile length => some length
  | .multiFile files => files.foldlM (fun len f => p.add 64 len f.length) 0

/-- `Info`, with the hashes of `Pieces` as a list. -/
structure Info where
  name : String
  pieceLength : Nat
  pieces : List Digest
  downloadType : DownloadType
  deriving DecidableEq, Repr

namespace Info

/-- `Info::total_length`. -/
def totalLength (p : Profile) (info : Info) : Option Nat := info.downloadType.len p

/-- `Info::num_pieces`: the length is rounded up to pieces in `u64`, and the number
cast to `u32`. -/
def numPieces (p : Profile) (info : Info) : Option Nat := do
  let fileLen ← info.downloadType.len p
  let sum ← p.add 64 fileLen info.pieceLength
  let num ← p.sub 64 sum 1
  if info.pieceLength = 0 then none else some (asU32 (num / info.pieceLength))

/-- The product of two `u32`s fits in a `u64`, and so does its sum with a third. -/
def getPieceLength (p : Profile) (info : Info) (pieceIndex : Nat) : Option Nat := do
  let length ← info.downloadType.len p
  let begin := pieceIndex * info.pieceLength
  if begin + info.pieceLength > length then
    let rest ← p.sub 64 length begin
    if rest < 2 ^ 32 then some rest else none
  else some info.pieceLength

end Info

/-- An `Info` a download can start with in the build `p`: `length` is what
`total_length()` returns, and `vec![0; total_length]` can be allocated. -/
structure Torrent (p : Profile) where
  info : Info
  length : Nat
  len_eq : info.downloadType.len p = some length
  length_lt : length < 2 ^ 63
  pieceLength_pos : 0 < info.pieceLength
  pieceLength_lt : info.pieceLength < 2 ^ 32

namespace Torrent

variable {p : Profile} (t : Torrent p)

/-- What `num_pieces()` returns. -/
def numPieces : Nat := asU32 ((t.length + t.info.pieceLength - 1) / t.info.pieceLength)

/-- What `get_piece_length(i)` returns for a piece of the torrent. -/
def pieceLen (i : Nat) : Nat := min t.info.pieceLength (t.length - i * t.info.pieceLength)

theorem numPieces_lt : t.numPieces < 2 ^ 32 := Nat.mod_lt _ (Nat.two_pow_pos 32)

/-- `num_pieces` computes the number of pieces, without overflow. -/
theorem numPieces_eq : t.info.numPieces p = some t.numPieces := by
  have hlen := t.length_lt
  have hpl := t.pieceLength_lt
  have hpos := t.pieceLength_pos
  unfold Info.numPieces
  rw [t.len_eq, Option.bind_eq_bind, Option.bind_some, p.add_of_lt (by omega), Option.bind_some,
    p.sub_of_le (by omega), Option.bind_some, if_neg (by omega)]
  rfl

/-- A piece of the torrent starts inside the file. -/
theorem begin_lt {i : Nat} (hi : i < t.numPieces) : i * t.info.pieceLength < t.length := by
  have hpos := t.pieceLength_pos
  have hle : t.numPieces ≤ (t.length + t.info.pieceLength - 1) / t.info.pieceLength :=
    Nat.mod_le _ _
  have hmul : (i + 1) * t.info.pieceLength ≤ t.length + t.info.pieceLength - 1 :=
    (Nat.le_div_iff_mul_le hpos).mp (by omega)
  rw [Nat.add_mul, Nat.one_mul] at hmul
  omega

theorem pieceLen_pos {i : Nat} (hi : i < t.numPieces) : 0 < t.pieceLen i := by
  have := t.begin_lt hi
  have := t.pieceLength_pos
  unfold pieceLen
  omega

theorem pieceLen_le (i : Nat) : t.pieceLen i ≤ t.info.pieceLength := Nat.min_le_left _ _

theorem pieceLen_lt (i : Nat) : t.pieceLen i < 2 ^ 32 :=
  Nat.lt_of_le_of_lt (t.pieceLen_le i) t.pieceLength_lt

/-- A piece of the torrent ends inside the file. -/
theorem end_le {i : Nat} (hi : i < t.numPieces) :
    i * t.info.pieceLength + t.pieceLen i ≤ t.length := by
  have := t.begin_lt hi
  unfold pieceLen
  omega

/-- Two pieces do not overlap. -/
theorem pieces_disjoint {i j : Nat} (hij : i < j) :
    i * t.info.pieceLength + t.pieceLen i ≤ j * t.info.pieceLength := by
  have hle := t.pieceLen_le i
  have hmul : (i + 1) * t.info.pieceLength ≤ j * t.info.pieceLength := Nat.mul_le_mul_right _ hij
  rw [Nat.add_mul, Nat.one_mul] at hmul
  omega

/-- `get_piece_length` computes the length of the piece, without overflow. -/
theorem getPieceLength_eq {i : Nat} (hi : i < t.numPieces) :
    t.info.getPieceLength p i = some (t.pieceLen i) := by
  have hbegin := t.begin_lt hi
  have hpl := t.pieceLength_lt
  unfold Info.getPieceLength pieceLen
  rw [t.len_eq, Option.bind_eq_bind, Option.bind_some]
  by_cases hlast : i * t.info.pieceLength + t.info.pieceLength > t.length
  · -- the last piece, shorter than the others
    rw [if_pos hlast, p.sub_of_le (by omega), Option.bind_some, if_pos (by omega)]
    congr 1
    omega
  · rw [if_neg hlast]
    congr 1
    omega

end Torrent

end BitTorrent
