import BitTorrent.Download.Effect

/-!
# What a downloader knows of its pieces and blocks

The facts that hold in every run, whatever the peer, the stream and the other
downloaders do. A pending piece is a piece of the torrent, with its length, its
hash and a buffer of its length, and its requested part ends at a block boundary
or at the end of the piece (`PieceKnown`). A block that was requested is one of
the blocks the piece is cut into (`BlockKnown`). `Ledger` says this of the whole
task, `Known` adds what each phase carries.

So two blocks that were requested are the same, or do not overlap
(`BlockKnown.eq_or_disjoint`), and most of the arithmetic cannot fail: `newPiece`
succeeds for a piece of the torrent unless its blocks cannot be counted or there is
no hash for it (`newPiece_error`), and no block is empty.

A task that panicked knows nothing anymore. `Alive` excludes it, here and in the
later files.
-/

namespace BitTorrent

/-- The number of blocks in `len` bytes. -/
def blocksIn (len : Nat) : Nat := (len + blockSize - 1) / blockSize

theorem blocksIn_zero : blocksIn 0 = 0 := by decide

theorem blocksIn_pos {len : Nat} (h : 0 < len) : 0 < blocksIn len :=
  Nat.div_pos (by have := blockSize_pos; omega) blockSize_pos

theorem blocksIn_eq_zero {len : Nat} (h : blocksIn len = 0) : len = 0 := by
  by_contra hne
  exact Nat.ne_of_gt (blocksIn_pos (Nat.pos_of_ne_zero hne)) h

/-- One block less. -/
theorem blocksIn_sub {len : Nat} (h : 0 < len) :
    blocksIn (len - min blockSize len) + 1 = blocksIn len := by
  have hB : blockSize = 16384 := rfl
  unfold blocksIn
  rw [hB]
  omega

/-- A count that does not overflow is right, except that without overflow
checks it is wrong for a piece within a block of `2 ^ 32` bytes. -/
theorem numBlocks_eq {p : Profile} {len num : Nat} (hlen : len < 2 ^ 32)
    (h : numBlocks p len = some num) :
    num = blocksIn len ∨ 2 ^ 32 ≤ len + blockSize ∧ (num = 0 ∨ num = 2 ^ 18 - 1) := by
  have hB : blockSize = 16384 := rfl
  have h16 : (16384 : Nat) - 1 < 2 ^ 32 := by decide
  simp only [numBlocks, Option.bind_eq_bind, Option.bind_eq_some_iff, Option.some.injEq] at h
  obtain ⟨sum, hsum, num', hnum', rfl⟩ := h
  by_cases hsmall : len + blockSize < 2 ^ 32
  · left
    rw [p.add_of_lt hsmall] at hsum
    obtain rfl := Option.some.inj hsum
    rw [p.sub_of_le (by omega)] at hnum'
    obtain rfl := Option.some.inj hnum'
    rfl
  · right
    have hsum' := Profile.add_mod hsum
    have hlt := Profile.add_lt hsum
    rw [Nat.mod_eq_of_lt hlt, Nat.mod_eq_sub_mod (Nat.le_of_not_lt hsmall),
      Nat.mod_eq_of_lt (by omega)] at hsum'
    have hnum := Profile.sub_mod (Nat.one_le_two_pow) hnum'
    have hlt' := Profile.sub_lt hlt hnum'
    refine ⟨Nat.le_of_not_lt hsmall, ?_⟩
    rw [Nat.mod_eq_of_lt hlt] at hnum
    by_cases hzero : sum = 0
    · right
      have : num' = 2 ^ 32 - 1 := by omega
      rw [this, hB]
      rfl
    · left
      have : num' = sum - 1 := by omega
      rw [this, hB]
      omega

/-- `num_blocks` rounds up, when the sum in it does not overflow. -/
theorem numBlocks_of_lt (p : Profile) {len : Nat} (h : len + blockSize < 2 ^ 32) :
    numBlocks p len = some (blocksIn len) := by
  have hB : blockSize = 16384 := rfl
  unfold numBlocks
  rw [p.add_of_lt h, Option.bind_eq_bind, Option.bind_some, p.sub_of_le (by omega),
    Option.bind_some]
  rfl

/-! ## Pieces and blocks -/

/-- A pending piece, as every run leaves it. -/
structure PieceKnown (cfg : Config) (k : Nat) (dl : PieceDownload) : Prop where
  lt : k < cfg.torrent.numPieces
  hash : cfg.torrent.info.pieces[k]? = some dl.pieceHash
  length : dl.pieceLength = cfg.torrent.pieceLen k
  bytes : dl.bytes.length = dl.pieceLength
  requested_le : dl.requested ≤ dl.pieceLength
  aligned : dl.requested % blockSize = 0 ∨ dl.requested = dl.pieceLength
  counted : (numBlocks cfg.profile dl.pieceLength).isSome

/-- A block of the torrent. -/
structure BlockKnown (cfg : Config) (x : BlockDownload) : Prop where
  lt : x.pieceIndex < cfg.torrent.numPieces
  aligned : x.blockBegin % blockSize = 0
  begin_lt : x.blockBegin < cfg.torrent.pieceLen x.pieceIndex
  len : x.blockLen = min blockSize (cfg.torrent.pieceLen x.pieceIndex - x.blockBegin)

section Known

variable {cfg : Config} {k : Nat} {dl : PieceDownload} {x y : BlockDownload}

theorem PieceDownload.nextBlock_blockLen (dl : PieceDownload) (k : Nat) :
    (dl.nextBlock k).blockLen = min blockSize (dl.pieceLength - dl.requested) := by
  unfold nextBlock
  dsimp only
  split <;> omega

/-- As long as a piece is not requested to its end, its requests end with full
blocks. -/
theorem PieceKnown.aligned_of_lt (h : PieceKnown cfg k dl) (hlt : dl.requested < dl.pieceLength) :
    dl.requested % blockSize = 0 :=
  h.aligned.resolve_right (Nat.ne_of_lt hlt)

/-- The next block is one of the piece. -/
theorem PieceKnown.nextBlock (h : PieceKnown cfg k dl) (hlt : dl.requested < dl.pieceLength) :
    BlockKnown cfg (dl.nextBlock k) where
  lt := h.lt
  aligned := h.aligned_of_lt hlt
  begin_lt := h.length ▸ hlt
  len := by
    rw [PieceDownload.nextBlock_blockLen, h.length]
    rfl

/-- The piece after the request of its next block. -/
theorem PieceKnown.advance (h : PieceKnown cfg k dl) (hlt : dl.requested < dl.pieceLength) :
    PieceKnown cfg k (dl.advance k) where
  lt := h.lt
  hash := h.hash
  length := h.length
  bytes := h.bytes
  requested_le := by
    have := dl.nextBlock_le k
    show dl.requested + _ ≤ dl.pieceLength
    omega
  aligned := by
    have hal := h.aligned_of_lt hlt
    have hlen := dl.nextBlock_blockLen k
    show (dl.requested + _) % blockSize = 0 ∨ dl.requested + _ = dl.pieceLength
    rw [hlen]
    rcases Nat.le_total blockSize (dl.pieceLength - dl.requested) with hle | hle
    · left
      rw [Nat.min_eq_left hle, Nat.add_mod_right]
      exact hal
    · right
      rw [Nat.min_eq_right hle]
      omega
  counted := h.counted

theorem BlockKnown.end_le (h : BlockKnown cfg x) :
    x.blockBegin + x.blockLen ≤ cfg.torrent.pieceLen x.pieceIndex := by
  have := h.begin_lt
  have := h.len
  omega

theorem BlockKnown.len_pos (h : BlockKnown cfg x) : 0 < x.blockLen := by
  have := h.begin_lt
  have := h.len
  have := blockSize_pos
  omega

theorem BlockKnown.len_le (h : BlockKnown cfg x) : x.blockLen ≤ blockSize := by
  have := h.len
  omega

/-- A block that begins in the requested part of its piece lies in it. -/
theorem BlockKnown.end_le_requested (h : BlockKnown cfg x) (hdl : PieceKnown cfg x.pieceIndex dl)
    (hlt : x.blockBegin < dl.requested) : x.blockBegin + x.blockLen ≤ dl.requested := by
  have hB : blockSize = 16384 := rfl
  have hal := h.aligned
  have hle := h.len_le
  have hend := h.end_le
  rw [← hdl.length] at hend
  rcases hdl.aligned with h0 | h0
  · rw [hB] at hal hle h0
    omega
  · omega

/-- Two blocks of a piece are the same or do not overlap. -/
theorem BlockKnown.eq_or_disjoint (hx : BlockKnown cfg x) (hy : BlockKnown cfg y)
    (hxy : x.pieceIndex = y.pieceIndex) :
    x = y ∨ x.blockBegin + x.blockLen ≤ y.blockBegin ∨
      y.blockBegin + y.blockLen ≤ x.blockBegin := by
  have hB : blockSize = 16384 := rfl
  have hax := hx.aligned
  have hay := hy.aligned
  have hlx := hx.len_le
  have hly := hy.len_le
  by_cases hbegin : x.blockBegin = y.blockBegin
  · left
    have hlen : x.blockLen = y.blockLen := by rw [hx.len, hy.len, hxy, hbegin]
    cases x
    cases y
    simp only at hxy hbegin hlen
    rw [hxy, hbegin, hlen]
  · right
    rw [hB] at hax hay hlx hly
    omega

/-- The download of a piece that was just picked. -/
theorem newPiece_eq (hk : k < cfg.torrent.numPieces)
    (h : SeedDownloader.newPiece cfg k = .ok dl) :
    PieceKnown cfg k dl ∧ dl.requested = 0 ∧
      ∃ num, numBlocks cfg.profile dl.pieceLength = some num ∧ dl.remainingBlocks = asU16 num := by
  unfold SeedDownloader.newPiece at h
  rw [cfg.torrent.getPieceLength_eq hk] at h
  dsimp only at h
  split at h
  next => cases h
  next num hnum =>
    split at h
    next => cases h
    next hash hhash =>
      obtain rfl := Except.ok.inj h
      exact ⟨⟨hk, hhash, rfl, List.length_replicate, Nat.zero_le _, Or.inl (Nat.zero_mod _),
        by rw [hnum]; rfl⟩, rfl, num, hnum, rfl⟩

/-- What stops the choice of a new piece. -/
theorem newPiece_error {k : Nat} {e : Panic} (h : SeedDownloader.newPiece cfg k = .error e) :
    e = .pieceLength ∨ e = .numBlocksOverflow ∨ e = .pieceIndex := by
  unfold SeedDownloader.newPiece at h
  split at h
  next => exact Or.inl (Except.error.inj h).symm
  next =>
    split at h
    next => exact Or.inr (Or.inl (Except.error.inj h).symm)
    next =>
      split at h
      next => exact Or.inr (Or.inr (Except.error.inj h).symm)
      next => cases h

end Known

/-! ## The reset of a choke -/

section Reset

variable {p : Profile} {m m' : PendingPieces} {k : Nat}

/-- Each piece is reset by itself. -/
theorem resetPieces_getElem? (h : SeedDownloader.resetPieces p m = some m') :
    m'[k]? = (m[k]?).bind (SeedDownloader.resetPiece p) := by
  unfold SeedDownloader.resetPieces at h
  split at h
  next =>
    rw [← Option.some.inj h]
    simp
  next => cases h

/-- Nothing is lost: a piece that is pending stays pending. -/
theorem resetPieces_isSome (h : SeedDownloader.resetPieces p m = some m') {dl : PieceDownload}
    (hdl : m[k]? = some dl) : ∃ dl' : PieceDownload, m'[k]? = some dl' := by
  rw [resetPieces_getElem? h, hdl, Option.bind_some]
  unfold SeedDownloader.resetPieces at h
  split at h
  next hall =>
    have hmem : (k, dl) ∈ m.toList := Std.ExtTreeMap.mem_toList_iff_getElem?_eq_some.mpr hdl
    have hsome := List.all_eq_true.mp hall (k, dl) hmem
    exact Option.isSome_iff_exists.mp hsome
  next => cases h

/-- Each piece starts again, in the buffer it has. -/
theorem resetPieces_eq_some (h : SeedDownloader.resetPieces p m = some m') {dl' : PieceDownload}
    (hdl' : m'[k]? = some dl') :
    ∃ (dl : PieceDownload) (num : Nat), m[k]? = some dl ∧ numBlocks p dl.pieceLength = some num ∧
      dl' = { dl with requested := 0, remainingBlocks := asU16 num } := by
  rw [resetPieces_getElem? h] at hdl'
  obtain ⟨dl, hdl, hreset⟩ := Option.bind_eq_some_iff.mp hdl'
  obtain ⟨num, hnum, heq⟩ := Option.map_eq_some_iff.mp hreset
  exact ⟨dl, num, hdl, hnum, heq.symm⟩

/-- The reset panics only on a piece whose blocks cannot be counted. -/
theorem resetPieces_eq_none (h : SeedDownloader.resetPieces p m = none) :
    ∃ (k : Nat) (dl : PieceDownload), m[k]? = some dl ∧ numBlocks p dl.pieceLength = none := by
  unfold SeedDownloader.resetPieces at h
  split at h
  next => cases h
  next hall =>
    rw [List.all_eq_true] at hall
    by_contra hno
    refine hall fun e he => ?_
    rw [SeedDownloader.resetPiece, Option.isSome_map, Option.isSome_iff_ne_none]
    exact fun hnone => hno ⟨e.1, e.2, Std.ExtTreeMap.mem_toList_iff_getElem?_eq_some.mp he, hnone⟩

end Reset

/-! ## The task -/

/-- The pieces and the blocks of a task. -/
structure Ledger (cfg : Config) (s : SeedDownloader) : Prop where
  piece : ∀ k dl, s.pendingPieces[k]? = some dl → PieceKnown cfg k dl
  block : ∀ x ∈ s.pendingBlocks, BlockKnown cfg x

/-- What a phase carries. -/
def PhaseKnown (cfg : Config) (pieces : PendingPieces) : Phase → Prop
  | .complete k => ∃ dl, pieces[k]? = some dl
  | .start k dl => k ∉ pieces ∧ PieceKnown cfg k dl ∧ dl.requested = 0 ∧
    ∃ num, numBlocks cfg.profile dl.pieceLength = some num ∧ dl.remainingBlocks = asU16 num
  | .sending k len bytes => k < cfg.torrent.numPieces ∧ len = cfg.torrent.pieceLen k ∧
    bytes.length = len ∧ cfg.torrent.info.pieces[k]? = some (cfg.sha1 bytes)
  | _ => True

/-- What a live task knows: of its pieces, of its blocks and of what its phase
carries. -/
structure Known (cfg : Config) (s : SeedDownloader) : Prop extends Ledger cfg s where
  phase : PhaseKnown cfg s.pendingPieces s.phase

/-- The task has not panicked. -/
def SeedDownloader.Alive (s : SeedDownloader) : Prop := ∀ e, s.phase ≠ .panicked e

instance (s : SeedDownloader) : Decidable s.Alive :=
  match h : s.phase with
  | .panicked e => isFalse fun hlive => hlive e h
  | .loopHead | .select | .complete _ | .sending .. | .sent | .request | .pick | .start ..
  | .leaving | .ended => isTrue fun e he => by rw [h] at he; cases he

section Step

variable {cfg : Config} {b : Bitfield} {s s' : SeedDownloader} {a : SeedAct}

theorem known_new (cfg : Config) : Known cfg SeedDownloader.new where
  piece := fun k dl h => by simp [SeedDownloader.new] at h
  block := fun x h => by simp [SeedDownloader.new] at h
  phase := trivial

theorem Ledger.congr (h : Ledger cfg s) (hp : s'.pendingPieces = s.pendingPieces)
    (hb : s'.pendingBlocks = s.pendingBlocks) : Ledger cfg s' :=
  ⟨by rw [hp]; exact h.piece, by rw [hb]; exact h.block⟩

/-- A piece is put in. -/
theorem Ledger.insert (h : Ledger cfg s) {k : Nat} {dl : PieceDownload}
    (hdl : PieceKnown cfg k dl) (hp : s'.pendingPieces = s.pendingPieces.insert k dl)
    (hb : s'.pendingBlocks ⊆ s.pendingBlocks) : Ledger cfg s' := by
  refine ⟨fun j dl' hj => ?_, fun x hx => h.block x (hb hx)⟩
  rw [hp, SeedDownloader.insert_getElem?] at hj
  split at hj
  next heq =>
    rw [← heq, ← Option.some.inj hj]
    exact hdl
  next => exact h.piece j dl' hj

/-- A piece is taken out. -/
theorem Ledger.erase (h : Ledger cfg s) {k : Nat}
    (hp : s'.pendingPieces = s.pendingPieces.erase k)
    (hb : s'.pendingBlocks ⊆ s.pendingBlocks) : Ledger cfg s' := by
  refine ⟨fun j dl' hj => ?_, fun x hx => h.block x (hb hx)⟩
  rw [hp, SeedDownloader.erase_getElem?] at hj
  split at hj
  next => cases hj
  next => exact h.piece j dl' hj

/-- A block is requested. -/
theorem Ledger.push (h : Ledger cfg s) {k : Nat} {dl : PieceDownload}
    (hdl : s.pendingPieces[k]? = some dl) (hlt : dl.requested < dl.pieceLength) (inflight : Nat) :
    Ledger cfg (s.push k dl inflight) := by
  have hk := h.piece k dl hdl
  have hins : Ledger cfg { s.push k dl inflight with pendingBlocks := ∅ } :=
    h.insert (hk.advance hlt) rfl (Finset.empty_subset _)
  refine ⟨hins.piece, fun x hx => ?_⟩
  rcases Finset.mem_insert.mp hx with rfl | hx
  · exact hk.nextBlock hlt
  · exact h.block x hx

theorem Ledger.requestPending (h : Ledger cfg s) (order : List Nat) (w : Wire) :
    (requestPending cfg.profile order s w).Sat (fun sw => Ledger cfg sw.1)
      (fun sw => Ledger cfg sw.1) (fun _ => True) :=
  SeedDownloader.requestPending_invariant
    (fun _ _ _ inflight h hdl hlt _ _ => h.push hdl hlt inflight) order s w h

theorem Ledger.requestBlocks (h : Ledger cfg s) {k : Nat} {dl : PieceDownload}
    (hdl : PieceKnown cfg k dl) (w : Wire) :
    (requestBlocks cfg.profile k ⟨dl, s.inflight, s.pendingBlocks, w⟩).Sat
      (fun r => Ledger cfg (s.apply k r)) (fun r => Ledger cfg (s.apply k r)) (fun _ => True) :=
  (SeedDownloader.apply_rule (fun _ _ inflight h hdl hlt _ _ => h.push hdl hlt inflight) _
    (h.insert hdl rfl (Finset.Subset.refl _))).mono (fun _ hr => hr.1) (fun _ hr => hr.1)
    (fun _ _ => trivial)

/-- A choke resets the pieces and drops the blocks. -/
theorem Ledger.reset (h : Ledger cfg s) {pieces : PendingPieces}
    (hreset : SeedDownloader.resetPieces cfg.profile s.pendingPieces = some pieces)
    (hp : s'.pendingPieces = pieces) (hb : s'.pendingBlocks = ∅) : Ledger cfg s' := by
  refine ⟨fun k dl' hk => ?_, fun x hx => by rw [hb] at hx; cases hx⟩
  rw [hp] at hk
  obtain ⟨dl, num, hdl, -, rfl⟩ := resetPieces_eq_some hreset hk
  have hold := h.piece k dl hdl
  exact ⟨hold.lt, hold.hash, hold.length, hold.bytes, Nat.zero_le _, Or.inl (Nat.zero_mod _),
    hold.counted⟩

/-- The facts are kept by every step that does not panic. -/
theorem known_step (hb : Bitfield.Inv cfg.torrent.numPieces b) (h : Known cfg s)
    (he : Effect cfg b s a s') (hlive : s'.Alive) : Known cfg s' := by
  have hn := cfg.torrent.numPieces_lt
  cases he with
  | move hm =>
    refine ⟨h.toLedger.congr rfl rfl, ?_⟩
    cases hm with
    | pickNew hs hpick hdl hnew =>
      rcases Bitfield.pickPiece_spec hb hn with ⟨-, heq⟩ | ⟨m, hm, -, -, heq⟩
      · rw [heq] at hpick
        cases hpick
      · rw [heq] at hpick
        obtain rfl := Option.some.inj (Exit.returned.inj hpick)
        obtain ⟨hnewp, hreq, hnum⟩ := newPiece_eq hm hnew
        exact ⟨hdl, hnewp, hreq, hnum⟩
    | finish | listen | ignore | streamEnd | sendOk | sendErr | leave | release | choked
    | pickNone | pickPending => exact trivial
  | choke hs hreset => exact ⟨h.toLedger.reset hreset rfl rfl, trivial⟩
  | unchoke hs hc => exact ⟨h.toLedger.congr rfl rfl, trivial⟩
  | orphan hs hmem hdl =>
    exact ⟨⟨h.piece, fun x hx => h.block x (Finset.mem_of_mem_erase hx)⟩, trivial⟩
  | @block index begin block dl remainingBlocks inflight bytes hs hframed hmem hdl hrem hinf
      hsplice =>
    have hold := h.piece _ _ hdl
    have hlen : bytes.length = dl.bytes.length := splice_length hsplice (by omega)
    -- the splice keeps the length of the buffer
    have hnew : PieceKnown cfg index.toNat { dl with remainingBlocks, bytes } :=
      ⟨hold.lt, hold.hash, hold.length, hlen.trans hold.bytes, hold.requested_le, hold.aligned,
        hold.counted⟩
    refine ⟨h.toLedger.insert hnew rfl (Finset.erase_subset _ _), ?_⟩
    dsimp only
    split
    · exact ⟨_, Std.ExtTreeMap.getElem?_insert_self⟩
    · exact trivial
  -- what is sent has the hash of the torrent
  | @valid index dl hs hset hdl hvalid =>
    have hold := h.piece _ _ hdl
    refine ⟨h.toLedger.erase rfl (Finset.Subset.refl _), hold.lt, hold.length, hold.bytes, ?_⟩
    rw [hold.hash, eq_of_beq hvalid]
  | invalid hs hset hdl hvalid =>
    exact ⟨h.toLedger.erase rfl (Finset.Subset.refl _), trivial⟩
  | @request order sends s₁ w hs hc horder hreq =>
    have hl := h.toLedger.requestPending order ⟨sends, []⟩
    rw [hreq] at hl
    refine ⟨Ledger.congr hl rfl rfl, ?_⟩
    dsimp only [SeedDownloader.goto]
    split <;> exact trivial
  | @requestFailed order sends s₁ w hs hc horder hreq =>
    have hl := h.toLedger.requestPending order ⟨sends, []⟩
    rw [hreq] at hl
    exact ⟨Ledger.congr hl rfl rfl, trivial⟩
  | @start index dl sends r hs hdl hreq =>
    have hph := h.phase
    rw [hs] at hph
    have hl := h.toLedger.requestBlocks hph.2.1 ⟨sends, []⟩
    rw [hreq] at hl
    exact ⟨Ledger.congr hl rfl rfl, trivial⟩
  | @startFailed index dl sends r hs hreq =>
    have hph := h.phase
    rw [hs] at hph
    have hl := h.toLedger.requestBlocks hph.2.1 ⟨sends, []⟩
    rw [hreq] at hl
    exact ⟨⟨h.piece, hl.block⟩, trivial⟩
  | panic hcause hs' => exact absurd hs' (hlive _)

end Step

end BitTorrent
