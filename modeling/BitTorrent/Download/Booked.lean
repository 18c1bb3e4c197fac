import BitTorrent.Download.Blocks

/-!
# Block bookkeeping

For a torrent whose pieces have fewer than `2 ^ 16` blocks `remaining_blocks` is
the number of blocks left (`Exact`), and the outstanding blocks of a pending
piece lie in its requested part (`Begun`). `Booked` puts this together; it is
kept by every step that does not start a piece whose blocks are still
outstanding from an earlier start, which takes a failed send. The assertions
about the bookkeeping then cannot fail (`Booked.not_bookkeeping`).

By `Begun` no block is requested while it is outstanding: the next block begins
where the requested part ends, so it is not among the outstanding ones, and the
assertion on its insertion holds. By `Exact` a piece is complete when its last block
has arrived, and not before.

`SmallPieces` is a condition on the torrent. Its pieces have at most 65535 blocks,
about a gigabyte each. It is a hypothesis of everything that is proved from
`Booked`.
-/

namespace BitTorrent

/-- Every piece has fewer than `2 ^ 16` blocks. -/
def SmallPieces (cfg : Config) : Prop :=
  ∀ k, k < cfg.torrent.numPieces → blocksIn (cfg.torrent.pieceLen k) < 2 ^ 16

instance (cfg : Config) : Decidable (SmallPieces cfg) :=
  inferInstanceAs (Decidable (∀ k, k < _ → _))

/-- The count of a piece that is not complete. -/
def Exact (r l : Nat) : Prop := r = l ∧ 0 < l

/-- The count of a complete piece. -/
def Done (r l : Nat) : Prop := r = 0 ∧ l = 0

/-- The blocks of a pending piece were requested since it was last reset. -/
def Begun (s : SeedDownloader) : Prop :=
  ∀ x ∈ s.pendingBlocks, ∀ dl, s.pendingPieces[x.pieceIndex]? = some dl →
    x.blockBegin < dl.requested

/-- The step does not start a piece with blocks outstanding. -/
def SeedDownloader.Fresh (s : SeedDownloader) : Prop :=
  ∀ k dl, s.phase = .start k dl → s.outstanding k = ∅

instance (s : SeedDownloader) : Decidable s.Fresh :=
  match h : s.phase with
  | .start k _ => decidable_of_iff (s.outstanding k = ∅)
      ⟨fun h0 _ _ hj => (Phase.start.inj (h.symm.trans hj)).1 ▸ h0, fun hf => hf k _ h⟩
  | .loopHead | .select | .complete _ | .sending .. | .sent | .request | .pick | .leaving | .ended
  | .panicked _ => isTrue fun _ _ hj => nomatch h.symm.trans hj

/-- The books of a downloader: the counter of each piece is exact, and every
outstanding block of a pending piece lies in the requested part of it. -/
structure Booked (cfg : Config) (s : SeedDownloader) : Prop extends Known cfg s where
  counts : Counts Exact Done s
  begun : Begun s

/-- What a batch of requests starts from and keeps. -/
structure Books (cfg : Config) (s : SeedDownloader) : Prop extends Ledger cfg s where
  exact : CountsAll Exact s
  begun : Begun s

/-- The panics that stand for a fault in the bookkeeping. -/
def Panic.Bookkeeping : Panic → Prop
  | .blockAlreadyRequested | .pieceAlreadyPending | .requestedAbovePieceLength
  | .noRemainingBlocks | .remainingBlocksOverflow | .spliceRange | .pieceNotPending => True
  | _ => False

section Booked

variable {cfg : Config} {b : Bitfield} {s s' : SeedDownloader} {a : SeedAct}

/-! ## One request -/

/-- The block that is requested lies below the new `requested`. -/
theorem Begun.push (h : Begun s) {k : Nat} {dl : PieceDownload}
    (hdl : s.pendingPieces[k]? = some dl) (hlt : dl.requested < dl.pieceLength) (inflight : Nat) :
    Begun (s.push k dl inflight) := by
  intro x hx dl' hdl'
  rw [SeedDownloader.push_getElem?] at hdl'
  have hpos := dl.nextBlock_pos hlt k
  have hadv : dl.requested < (dl.advance k).requested := by
    show dl.requested < dl.requested + _
    omega
  rcases Finset.mem_insert.mp hx with rfl | hx
  · rw [if_pos (show k = (dl.nextBlock k).pieceIndex from rfl)] at hdl'
    rw [← Option.some.inj hdl']
    exact hadv
  · split at hdl'
    next heq =>
      rw [← Option.some.inj hdl']
      exact Nat.lt_trans (h x hx dl (heq ▸ hdl)) hadv
    next => exact h x hx dl' hdl'

theorem Begun.mono (h : Begun s) (hp : ∀ (k : Nat) (dl : PieceDownload),
      s'.pendingPieces[k]? = some dl → ∃ dl₀ : PieceDownload, s.pendingPieces[k]? = some dl₀ ∧
        dl₀.requested = dl.requested)
    (hb : s'.pendingBlocks ⊆ s.pendingBlocks) : Begun s' := by
  intro x hx dl hdl
  obtain ⟨dl₀, hdl₀, hreq⟩ := hp _ dl hdl
  rw [← hreq]
  exact h x (hb hx) dl₀ hdl₀

/-- A request of a block that is not outstanding keeps the books. -/
theorem Books.push (h : Books cfg s) {k : Nat} {dl : PieceDownload}
    (hdl : s.pendingPieces[k]? = some dl) (hlt : dl.requested < dl.pieceLength)
    (hnew : dl.nextBlock k ∉ s.pendingBlocks) (inflight : Nat) :
    Books cfg (s.push k dl inflight) :=
  ⟨h.toLedger.push hdl hlt inflight, h.exact.push hdl hlt hnew inflight,
    h.begun.push hdl hlt inflight⟩

/-- The next block of a pending piece is not outstanding. -/
theorem Begun.nextBlock_not_mem (h : Begun s) {k : Nat} {dl : PieceDownload}
    (hdl : s.pendingPieces[k]? = some dl) : dl.nextBlock k ∉ s.pendingBlocks :=
  fun hmem => Nat.lt_irrefl _ (h _ hmem dl hdl)

/-! ## The two loops -/

/-- A batch for one piece: however it ends, no block was requested twice. -/
theorem begun_apply {p : Profile} {k : Nat} {r : Requests} (hr : Begun (s.apply k r)) :
    (requestBlocks p k r).Sat (fun r' => Begun (s.apply k r')) (fun r' => Begun (s.apply k r'))
      (fun e => e ≠ .blockAlreadyRequested) := by
  refine (SeedDownloader.apply_rule (I := Begun)
    (fun _ _ inflight h hdl hlt _ _ => h.push hdl hlt inflight) r hr).mono
    (fun _ hr => hr.1) (fun _ hr => hr.1) (fun e he => ?_)
  obtain ⟨r', hr', -, he⟩ := he
  rcases he with ⟨rfl, hmem⟩ | ⟨rfl, -⟩
  · exact absurd hmem (hr'.nextBlock_not_mem (SeedDownloader.apply_getElem? s k r'))
  · exact (nomatch ·)

/-- The requests for the pending pieces. No block is requested twice. -/
theorem Begun.requestPending (h : Begun s) (p : Profile) (order : List Nat) (w : Wire) :
    (requestPending p order s w).Sat (fun sw => Begun sw.1) (fun sw => Begun sw.1)
      (fun e => e ≠ .blockAlreadyRequested) :=
  requestPending_rule (I := fun _ s _ => Begun s) (F := fun s _ => Begun s)
    (fun _ _ _ _ h _ => h) (fun _ _ _ _ _ _ _ _ => ⟨fun _ => (nomatch ·), fun _ => (nomatch ·)⟩)
    (fun _ _ _ _ _ h hdl _ => begun_apply (by rw [SeedDownloader.apply_self hdl]; exact h))
    order s w h

/-- A batch for one piece keeps the books, and when a send failed there was none left
to succeed. -/
theorem books_apply {p : Profile} {k : Nat} {r : Requests} (hr : Books cfg (s.apply k r)) :
    (requestBlocks p k r).Sat (fun r' => Books cfg (s.apply k r'))
      (fun r' => Books cfg (s.apply k r') ∧ r'.wire.sends = some 0)
      (fun e => ¬ e.Bookkeeping) := by
  refine (SeedDownloader.apply_rule (I := Books cfg)
    (fun _ _ inflight h hdl hlt hnew _ => h.push hdl hlt hnew inflight) r hr).mono
    (fun _ hr => hr.1) (fun _ hr => hr) (fun e he => ?_)
  obtain ⟨r', hr', -, he⟩ := he
  rcases he with ⟨rfl, hmem⟩ | ⟨rfl, -⟩
  · exact absurd hmem (hr'.begun.nextBlock_not_mem (SeedDownloader.apply_getElem? s k r'))
  · exact fun h => h

/-- The requests for the pending pieces keep the books. -/
theorem Books.requestPending (h : Books cfg s) (p : Profile) (order : List Nat) (w : Wire) :
    (requestPending p order s w).Sat (fun sw => Books cfg sw.1) (fun sw => Books cfg sw.1)
      (fun e => ¬ e.Bookkeeping) := by
  refine requestPending_rule (I := fun _ s _ => Books cfg s) (F := fun s _ => Books cfg s)
    (fun _ _ _ _ h _ => h) (fun k _ s _ dl h hdl _ => ⟨fun hlt => ?_, fun h0 => ?_⟩)
    (fun k _ s w dl h hdl _ => ?_) order s w h
  · exact absurd hlt (Nat.not_lt.mpr (h.piece k dl hdl).requested_le)
  · have hexact := h.exact k dl hdl
    rw [h0] at hexact
    exact absurd hexact.1 (Nat.ne_of_lt hexact.2)
  · exact (books_apply (by rw [SeedDownloader.apply_self hdl]; exact h)).mono (fun _ hr => hr)
      (fun _ hr => hr.1) (fun _ he => he)

/-- With few blocks the cast to `u16` loses nothing. -/
theorem numBlocks_small (hsmall : SmallPieces cfg) {k : Nat} {dl : PieceDownload}
    (hdl : PieceKnown cfg k dl) {num : Nat}
    (hnum : numBlocks cfg.profile dl.pieceLength = some num) :
    Exact (asU16 num) (blocksIn dl.pieceLength) := by
  have hB : blockSize = 16384 := rfl
  have hlt := hsmall k hdl.lt
  have hpos := cfg.torrent.pieceLen_pos hdl.lt
  rw [← hdl.length] at hlt hpos
  have hlen : dl.pieceLength + blockSize < 2 ^ 32 := by
    unfold blocksIn at hlt
    rw [hB] at hlt ⊢
    omega
  rw [numBlocks_of_lt _ hlen] at hnum
  rw [← Option.some.inj hnum]
  exact ⟨Nat.mod_eq_of_lt hlt, blocksIn_pos hpos⟩

/-- A new piece of which no block is outstanding. -/
theorem Begun.start (h : Begun s) {k : Nat} (hfresh : s.outstanding k = ∅) (dl : PieceDownload)
    (w : Wire) : Begun (s.apply k ⟨dl, s.inflight, s.pendingBlocks, w⟩) := by
  intro x hx dl' hdl'
  rw [show (s.apply k _).pendingPieces = s.pendingPieces.insert k dl from rfl,
    SeedDownloader.insert_getElem?] at hdl'
  split at hdl'
  next heq =>
    have hmem : x ∈ s.outstanding k := SeedDownloader.mem_outstanding.mpr ⟨hx, heq.symm⟩
    rw [hfresh] at hmem
    cases hmem
  next => exact h x hx dl' hdl'

/-- The books when a fresh piece is put among the pending ones. -/
theorem Booked.start (h : Booked cfg s) (hsmall : SmallPieces cfg) {k : Nat} {dl : PieceDownload}
    (hs : s.phase = .start k dl) (hfresh : s.outstanding k = ∅) (w : Wire) :
    Exact dl.remainingBlocks (s.left k dl) ∧
      Books cfg (s.apply k ⟨dl, s.inflight, s.pendingBlocks, w⟩) := by
  have hph := h.phase
  rw [hs] at hph
  obtain ⟨-, hdl, hreq, num, hnum, hrem⟩ := hph
  have hexact : Exact dl.remainingBlocks (s.left k dl) := by
    unfold SeedDownloader.left PieceDownload.unrequested
    rw [hfresh, hreq, hrem, Finset.card_empty, Nat.zero_add, Nat.sub_zero]
    exact numBlocks_small hsmall hdl hnum
  exact ⟨hexact, h.toLedger.insert hdl rfl (Finset.Subset.refl _),
    (h.counts.all fun j => by rw [hs]; exact (nomatch ·)).insert hexact w,
    h.begun.start hfresh dl w⟩

theorem Booked.books (h : Booked cfg s) (hs : ∀ k, s.phase ≠ .complete k) : Books cfg s :=
  ⟨h.toLedger, h.counts.all hs, h.begun⟩

/-! ## Steps -/

theorem booked_new (cfg : Config) : Booked cfg SeedDownloader.new where
  toKnown := known_new cfg
  counts := fun k dl hdl => by simp [SeedDownloader.new] at hdl
  begun := fun x hx => by simp [SeedDownloader.new] at hx

/-- One step keeps `Begun`, when it starts no piece with blocks outstanding. -/
theorem begun_step (hk : Known cfg s) (h : Begun s) (he : Effect cfg b s a s') (hlive : s'.Alive)
    (hfresh : s.Fresh) : Begun s' := by
  have hsame : ∀ (k : Nat) (dl : PieceDownload), s.pendingPieces[k]? = some dl →
      ∃ dl₀ : PieceDownload, s.pendingPieces[k]? = some dl₀ ∧ dl₀.requested = dl.requested :=
    fun k dl hdl => ⟨dl, hdl, rfl⟩
  have herase : ∀ (index k : Nat) (dl : PieceDownload),
      (s.pendingPieces.erase index)[k]? = some dl →
      ∃ dl₀ : PieceDownload, s.pendingPieces[k]? = some dl₀ ∧ dl₀.requested = dl.requested := by
    intro index k dl hdl
    rw [SeedDownloader.erase_getElem?] at hdl
    split at hdl
    next => cases hdl
    next => exact ⟨dl, hdl, rfl⟩
  cases he with
  | move hm => exact h.mono hsame (Finset.Subset.refl _)
  | choke hs hreset => exact fun x hx => by cases hx
  | unchoke hs hc => exact h.mono hsame (Finset.Subset.refl _)
  | orphan hs hmem hdl => exact h.mono hsame (Finset.erase_subset _ _)
  | @block index begin block dl r inflight bytes hs hframed hmem hdl hrem hinf hsplice =>
    refine h.mono (fun k dl' hdl' => ?_) (Finset.erase_subset _ _)
    dsimp only at hdl'
    rw [SeedDownloader.insert_getElem?] at hdl'
    split at hdl'
    next heq => exact ⟨dl, heq ▸ hdl, by rw [← Option.some.inj hdl']⟩
    next => exact hsame k dl' hdl'
  | valid hs hset hdl hvalid => exact h.mono (herase _) (Finset.Subset.refl _)
  | invalid hs hset hdl hvalid => exact h.mono (herase _) (Finset.Subset.refl _)
  | @request order sends s₁ w hs hc horder hreq =>
    have hl := h.requestPending cfg.profile order ⟨sends, []⟩
    rw [hreq] at hl
    exact hl
  | @requestFailed order sends s₁ w hs hc horder hreq =>
    have hl := h.requestPending cfg.profile order ⟨sends, []⟩
    rw [hreq] at hl
    exact hl
  | @start index dl sends r hs hdl hreq =>
    have hl := begun_apply (p := cfg.profile) (h.start (hfresh index dl hs) dl ⟨sends, []⟩)
    rw [hreq] at hl
    exact hl
  | @startFailed index dl sends r hs hreq =>
    have hph := hk.phase
    rw [hs] at hph
    have hl := begun_apply (p := cfg.profile) (h.start (hfresh index dl hs) dl ⟨sends, []⟩)
    rw [hreq] at hl
    intro x hx dl' hdl'
    refine hl x hx dl' ?_
    rw [show (s.apply index r).pendingPieces = s.pendingPieces.insert index r.dl from rfl,
      SeedDownloader.insert_getElem?, if_neg]
    · exact hdl'
    · intro heq
      dsimp only at hdl'
      rw [← heq] at hdl'
      exact hph.1 (Std.ExtTreeMap.mem_iff_isSome_getElem?.mpr (by rw [hdl']; rfl))
  | panic hcause hs' => exact absurd hs' (hlive _)

/-- One step keeps the books, when it starts no piece with blocks outstanding. -/
theorem booked_step (hb : Bitfield.Inv cfg.torrent.numPieces b) (h : Booked cfg s)
    (he : Effect cfg b s a s') (hlive : s'.Alive) (hsmall : SmallPieces cfg) (hfresh : s.Fresh) :
    Booked cfg s' := by
  refine ⟨known_step hb h.toKnown he hlive, counts_step h.toKnown h.counts he hlive
    (fun r r' l hr hsub => ?_) (fun k dl num hdl hnum => numBlocks_small hsmall hdl hnum)
    (fun k dl hs => (h.start hsmall hs (hfresh k dl hs) ⟨none, []⟩).1),
    begun_step h.toKnown h.begun he hlive hfresh⟩
  rw [cfg.profile.sub_of_le (by have := hr.1; omega), hr.1] at hsub
  have hr' : r' = l := (Option.some.inj hsub).symm
  exact ⟨fun h0 => ⟨h0, hr' ▸ h0⟩, fun h0 => ⟨hr', Nat.pos_of_ne_zero (hr' ▸ h0)⟩⟩

/-- The bookkeeping never fails. -/
theorem Booked.not_bookkeeping (h : Booked cfg s) (hsmall : SmallPieces cfg) (hfresh : s.Fresh)
    {e : Panic} (hcause : Cause cfg b s a e) : ¬ e.Bookkeeping := by
  cases hcause with
  | remaining | choke | inflight | notImplemented | set | pick => exact fun h => h
  | remainingBlocks hs hmem hdl hsub =>
    have hexact := (h.counts _ _ hdl).2 (by rw [hs]; exact (nomatch ·))
    rw [cfg.profile.sub_of_le (by rw [hexact.1]; exact hexact.2)] at hsub
    cases hsub
  | @splice index begin block dl hs hframed hmem hdl hsplice =>
    have hblock := h.block _ hmem
    have hpiece := h.piece _ _ hdl
    have hend := hblock.end_le
    have hlen : asU32 block.length = block.length :=
      asU32_of_lt (by have : block.length + 9 < 2 ^ 32 := hframed; omega)
    have hend' : begin.toNat + block.length ≤ dl.bytes.length := by
      rw [hpiece.bytes, hpiece.length, ← hlen]
      exact hend
    rw [splice_of_le (Nat.le_add_right _ _) hend'] at hsplice
    cases hsplice
  | notPending hs hdl =>
    have hph := h.phase
    rw [hs] at hph
    obtain ⟨dl, hdl'⟩ := hph
    rw [hdl] at hdl'
    cases hdl'
  | @request order sends e sw hs hc horder hreq =>
    have hl := (h.books fun k => by rw [hs]; exact (nomatch ·)).requestPending cfg.profile order
      ⟨sends, []⟩
    rw [hreq] at hl
    exact hl
  | newPiece hs hpick hnew =>
    rcases newPiece_error hnew with rfl | rfl | rfl <;> exact fun h => h
  | @start index dl sends e r hs hreq =>
    have hl := books_apply (p := cfg.profile) (h.start hsmall hs (hfresh index dl hs) ⟨sends, []⟩).2
    rw [hreq] at hl
    exact hl
  | alreadyPending hs hdl =>
    have hph := h.phase
    rw [hs] at hph
    exact absurd hdl hph.1

end Booked

end BitTorrent
