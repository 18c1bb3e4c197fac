import BitTorrent.Bencode.InfoHash
import BitTorrent.Bencode.Partition
import BitTorrent.Download.Calls

/-!
# The arithmetic of an accepted torrent

The piece length, the lengths of the files and the hashes come from the torrent
file, and nothing compares them when it is read. `Info.Safe` is what the download
takes for granted of them: the computed numbers are those of the integers, and for
each piece that can be picked there is a hash. It holds exactly when the pieces are
not empty and there is one hash for each (`accepted_safe_iff`): the bounds on the
numbers that are computed follow from that.

They follow because a piece length is a `u32`, and the pieces are numbered in one:
fewer than `2 ^ 32` pieces of fewer than `2 ^ 32` bytes are fewer than `2 ^ 64`
bytes together. So neither the sum of the lengths nor the one in the rounding wraps
around, whatever the single lengths are.
-/

namespace BitTorrent

open Bencode

/-- Nothing panics, no sum wraps around, each result is the one of unbounded numbers,
and there is a hash for each piece that `pick_piece` returns. -/
structure Info.Safe (p : Profile) (info : Info) : Prop where
  sum_lt : info.downloadType.total + info.pieceLength < 2 ^ 64
  total : info.totalLength p = some info.downloadType.total
  count : info.numPieces p = some (info.downloadType.total ⌈/⌉ info.pieceLength)
  piece : ∀ i, i < info.downloadType.total ⌈/⌉ info.pieceLength →
    i * info.pieceLength < info.downloadType.total ∧
    info.getPieceLength p i = some (info.pieceLen info.downloadType.total i)
  hashes : info.downloadType.total ⌈/⌉ info.pieceLength = info.pieces.length
  lookup : ∀ n ops b index, info.numPieces p = some n → Bitfield.InRange n ops →
    run Bitfield.callStep (.zero n) ops = some b → b.pickPiece.2 = .returned (some index) →
    info.pieces[index]? ≠ none

/-- There is one hash for each piece that it takes to cover the file. -/
def Info.Matching (info : Info) : Prop :=
  0 < info.pieceLength ∧ info.pieces.length < 2 ^ 32 ∧
  info.downloadType.total ≤ info.pieces.length * info.pieceLength ∧
  info.pieces.length * info.pieceLength < info.downloadType.total + info.pieceLength

section Accepted

variable {p : Profile} {info : Info} {t : Tree}

/-- The piece length of a torrent that is accepted is a `u32`. -/
theorem pieceLength_lt_of_parse {m : MetaInfo} (hm : parseMetaInfo t = some m) :
    m.info.pieceLength < 2 ^ 32 := by
  obtain ⟨-, ti, -, hinfo⟩ := parse_info hm
  exact pieceLength_lt hinfo

/-- `pick_piece` returns pieces of the torrent only. -/
theorem pick_lt {n : Nat} {ops : List BitOp} {b : Bitfield} {index : Nat} (hn : n < 2 ^ 32)
    (hops : Bitfield.InRange n ops) (hrun : run Bitfield.callStep (.zero n) ops = some b)
    (hpick : b.pickPiece.2 = .returned (some index)) : index < n := by
  have hinv := Bitfield.calls_inv hn hops (Bitfield.inv_zero n) hrun
  rcases Bitfield.pickPiece_spec hinv hn with ⟨-, heq⟩ | ⟨m, hm, -, -, heq⟩
  · rw [heq] at hpick
    cases hpick
  · rw [heq] at hpick
    cases hpick
    exact hm

/-- One hash for each piece bounds every number the code computes. -/
theorem Info.Matching.safe (h : info.Matching) (p : Profile) (hlt : info.pieceLength < 2 ^ 32) :
    info.Safe p := by
  obtain ⟨hpos, hcount, hle, hgt⟩ := h
  have hceil := (ceilDiv_eq_iff hpos).mpr ⟨hle, hgt⟩
  have hproduct : info.pieces.length * info.pieceLength ≤ (2 ^ 32 - 1) * (2 ^ 32 - 1) :=
    Nat.mul_le_mul (by omega) (by omega)
  have hlen := DownloadType.len_eq p (show info.downloadType.total < 2 ^ 64 by omega)
  have hnum := numPieces_of_lt hlen hpos (by omega)
  rw [asU32_of_lt (by omega)] at hnum
  refine ⟨by omega, hlen, hnum, fun i hi => ?_, hceil, ?_⟩
  · have hbegin := begin_lt_length hpos hi
    exact ⟨hbegin, getPieceLength_of_lt hlen hlt (Nat.le_of_lt hbegin)⟩
  · intro n ops b index hn hops hrun hpick
    have hn' := Option.some.inj (hn.symm.trans hnum)
    have hindex := pick_lt (by omega) hops hrun hpick
    rw [List.getElem?_eq_getElem (by omega)]
    exact Option.some_ne_none _

/-- `num_pieces` returns a `u32`, and does not divide by zero. -/
theorem numPieces_lt_of_eq {n : Nat} (h : info.numPieces p = some n) :
    n < 2 ^ 32 ∧ 0 < info.pieceLength := by
  unfold Info.numPieces at h
  obtain ⟨fileLen, -, h⟩ := Option.bind_eq_some_iff.mp h
  obtain ⟨sum, -, h⟩ := Option.bind_eq_some_iff.mp h
  obtain ⟨num, -, h⟩ := Option.bind_eq_some_iff.mp h
  split at h
  · cases h
  · cases h
    exact ⟨Nat.mod_lt _ (Nat.two_pow_pos 32), by omega⟩

/-- **The arithmetic of an accepted torrent is safe exactly when the pieces are not
empty and there is one hash for each of them.** -/
theorem accepted_safe_iff (p : Profile) (t : Tree) (m : MetaInfo) (hm : parseMetaInfo t = some m) :
    m.info.Safe p ↔ m.info.Matching := by
  constructor
  · intro h
    obtain ⟨hlt, hpos⟩ := numPieces_lt_of_eq h.count
    obtain ⟨hle, hgt⟩ := (ceilDiv_eq_iff hpos).mp h.hashes
    exact ⟨hpos, h.hashes ▸ hlt, hle, hgt⟩
  · exact fun h => h.safe p (pieceLength_lt_of_parse hm)

theorem accepted_safe_iff_single : singleMeta.info.Safe .dev ↔ singleMeta.info.Matching :=
  accepted_safe_iff .dev singleTorrent singleMeta parseMetaInfo_singleTorrent

/-- The same file with a piece length of zero. -/
def emptyPieces : Tree :=
  dictTree [("announce", stringTree "udp://tracker.openbittorrent.com:80"),
    ("info", dictTree [("length", .int 20), ("name", stringTree "sample.txt"),
      ("piece length", .int 0), ("pieces", .bytes (List.replicate 20 0))])]

/-- It is accepted, and `num_pieces` divides by zero. -/
theorem empty_pieces_accepted :
    ∃ m, parseMetaInfo emptyPieces = some m ∧
      (∀ p, m.info.numPieces p = none ∧ ¬ m.info.Safe p) := by
  refine ⟨{ announce := "udp://tracker.openbittorrent.com:80"
            announceList := []
            info :=
              { name := "sample.txt"
                pieceLength := 0
                pieces := [Vector.replicate 20 0]
                downloadType := .singleFile 20 } }, by decide +kernel, fun p => ?_⟩
  have hpanics : ∀ info : Info, info.pieceLength = 0 → info.numPieces p = none := fun info h0 =>
    Option.eq_none_iff_forall_ne_some.mpr fun n hn => by
      have hpos := (numPieces_lt_of_eq hn).2
      omega
  exact ⟨hpanics _ rfl, fun h => nomatch h.count.symm.trans (hpanics _ rfl)⟩

end Accepted

end BitTorrent
