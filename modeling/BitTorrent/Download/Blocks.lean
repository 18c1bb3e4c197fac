import BitTorrent.Download.Solo

/-!
# The blocks of a pending piece

`left` counts the blocks of a pending piece that are still to come: those
requested and not received, and those not requested yet. A request does not
change it, a received block takes one away. `remaining_blocks` is meant to be
this number; for a piece of 65536 blocks or more it is truncated to 16 bits, and
all that is left in general is `Owed`.

`Counts R C` says that a relation `R` holds between `remaining_blocks` and `left`
for every pending piece, and `C` for the one that is complete. One step keeps it,
for every `R` and `C` that go together when a block arrives. It is used with
`Exact`, when the pieces have few blocks, and with `Owed`, when nothing is known
of them.
-/

namespace BitTorrent

/-- The number of blocks of the piece that were not requested yet. -/
def PieceDownload.unrequested (dl : PieceDownload) : Nat :=
  blocksIn (dl.pieceLength - dl.requested)

/-- A piece that is requested to its end has no block to request. -/
theorem PieceDownload.unrequested_of_le {dl : PieceDownload} (h : dl.pieceLength ≤ dl.requested) :
    dl.unrequested = 0 := by
  unfold unrequested
  rw [Nat.sub_eq_zero_of_le h, blocksIn_zero]

namespace SeedDownloader

/-- The blocks of the piece that were requested and did not arrive yet. -/
def outstanding (s : SeedDownloader) (k : Nat) : Finset BlockDownload :=
  s.pendingBlocks.filter fun x => x.pieceIndex = k

/-- The number of blocks of the piece that are still to come. -/
def left (s : SeedDownloader) (k : Nat) (dl : PieceDownload) : Nat :=
  (s.outstanding k).card + dl.unrequested

variable {s s' : SeedDownloader} {k j : Nat} {dl : PieceDownload} {x : BlockDownload}

theorem mem_outstanding : x ∈ s.outstanding k ↔ x ∈ s.pendingBlocks ∧ x.pieceIndex = k :=
  Finset.mem_filter

theorem push_getElem? (s : SeedDownloader) (k : Nat) (dl : PieceDownload) (inflight j : Nat) :
    (s.push k dl inflight).pendingPieces[j]? =
      if k = j then some (dl.advance k) else s.pendingPieces[j]? :=
  insert_getElem? ..

/-- A request takes one block off those to request. -/
theorem unrequested_advance (h : dl.requested < dl.pieceLength) (k : Nat) :
    (dl.advance k).unrequested + 1 = dl.unrequested := by
  have hlen := dl.nextBlock_blockLen k
  have hsub : dl.pieceLength - (dl.requested + (dl.nextBlock k).blockLen) =
      (dl.pieceLength - dl.requested) - min blockSize (dl.pieceLength - dl.requested) := by
    rw [hlen]
    omega
  show blocksIn (dl.pieceLength - (dl.requested + (dl.nextBlock k).blockLen)) + 1 = _
  rw [hsub]
  exact blocksIn_sub (by omega)

/-- A request moves one block from the unrequested to the outstanding ones. -/
theorem left_push (hnew : dl.nextBlock k ∉ s.pendingBlocks) (h : dl.requested < dl.pieceLength)
    (inflight : Nat) : (s.push k dl inflight).left k (dl.advance k) = s.left k dl := by
  have hout : (s.push k dl inflight).outstanding k = insert (dl.nextBlock k) (s.outstanding k) := by
    show (insert (dl.nextBlock k) s.pendingBlocks).filter _ = _
    rw [Finset.filter_insert, if_pos (show (dl.nextBlock k).pieceIndex = k from rfl)]
    rfl
  have hnot : dl.nextBlock k ∉ s.outstanding k := fun hm => hnew (mem_outstanding.mp hm).1
  have hun := unrequested_advance h k
  unfold left
  rw [hout, Finset.card_insert_of_notMem hnot]
  omega

/-- A request leaves the blocks of other pieces alone. -/
theorem left_push_ne (hne : j ≠ k) (dl dl' : PieceDownload) (inflight : Nat) :
    (s.push k dl inflight).left j dl' = s.left j dl' := by
  have hout : (s.push k dl inflight).outstanding j = s.outstanding j := by
    show (insert (dl.nextBlock k) s.pendingBlocks).filter _ = _
    rw [Finset.filter_insert,
      if_neg (show (dl.nextBlock k).pieceIndex ≠ j from fun h => hne h.symm)]
    rfl
  unfold left
  rw [hout]

theorem outstanding_erase (hb : s'.pendingBlocks = s.pendingBlocks.erase x) (k : Nat) :
    s'.outstanding k = (s.outstanding k).erase x := by
  unfold outstanding
  rw [hb, Finset.filter_erase]

/-- A received block of the piece is one less to come. -/
theorem left_erase (hx : x ∈ s.pendingBlocks) (hb : s'.pendingBlocks = s.pendingBlocks.erase x) :
    s'.left x.pieceIndex dl + 1 = s.left x.pieceIndex dl := by
  have hmem : x ∈ s.outstanding x.pieceIndex := mem_outstanding.mpr ⟨hx, rfl⟩
  have hcard := Finset.card_erase_add_one hmem
  unfold left
  rw [outstanding_erase hb]
  omega

theorem left_erase_ne (hne : j ≠ x.pieceIndex) (hb : s'.pendingBlocks = s.pendingBlocks.erase x)
    (dl : PieceDownload) : s'.left j dl = s.left j dl := by
  unfold left
  rw [outstanding_erase hb, Finset.erase_eq_of_notMem]
  exact fun hm => hne (mem_outstanding.mp hm).2.symm

theorem left_congr (hb : s'.pendingBlocks = s.pendingBlocks) (k : Nat) (dl : PieceDownload) :
    s'.left k dl = s.left k dl := by
  unfold left outstanding
  rw [hb]

/-- The piece has blocks to request. -/
def Partial (s : SeedDownloader) (k : Nat) : Prop :=
  ∃ dl, s.pendingPieces[k]? = some dl ∧ dl.requested < dl.pieceLength

end SeedDownloader

/-! ## Counters of what is left -/

/-- `remaining_blocks` is related by `R` to the number of blocks left. -/
def CountsAll (R : Nat → Nat → Prop) (s : SeedDownloader) : Prop :=
  ∀ k dl, s.pendingPieces[k]? = some dl → R dl.remainingBlocks (s.left k dl)

/-- The same of all pieces but the one that is being completed, where the
relation is `C`. -/
def Counts (R C : Nat → Nat → Prop) (s : SeedDownloader) : Prop :=
  ∀ k dl, s.pendingPieces[k]? = some dl →
    (s.phase = .complete k → C dl.remainingBlocks (s.left k dl)) ∧
    (s.phase ≠ .complete k → R dl.remainingBlocks (s.left k dl))

section Counts

variable {cfg : Config} {b : Bitfield} {s s' : SeedDownloader} {a : SeedAct}
variable {R C : Nat → Nat → Prop}

/-- Such a step neither starts nor ends with a piece to complete. -/
theorem Moves.not_complete {ph : Phase} (h : Moves cfg b s a ph) :
    (∀ k, s.phase ≠ .complete k) ∧ ∀ k, ph ≠ .complete k := by
  cases h with
  | finish hs | listen hs | ignore hs | streamEnd hs | sendOk hs | sendErr hs | leave hs
  | release hs | choked hs | pickNone hs | pickPending hs | pickNew hs =>
    exact ⟨by rw [hs]; exact fun _ => (nomatch ·), fun _ => (nomatch ·)⟩

theorem Counts.all (h : Counts R C s) (hs : ∀ k, s.phase ≠ .complete k) : CountsAll R s :=
  fun k dl hdl => (h k dl hdl).2 (hs k)

theorem CountsAll.counts (h : CountsAll R s) (hs : ∀ k, s.phase ≠ .complete k) : Counts R C s :=
  fun k dl hdl => ⟨fun hc => absurd hc (hs k), fun _ => h k dl hdl⟩

/-- The counters do not look at anything but the pieces and the blocks. -/
theorem CountsAll.congr (h : CountsAll R s) (hp : s'.pendingPieces = s.pendingPieces)
    (hb : s'.pendingBlocks = s.pendingBlocks) : CountsAll R s' := by
  intro k dl hdl
  rw [SeedDownloader.left_congr hb]
  exact h k dl (hp ▸ hdl)

/-- A request leaves every count as it is. -/
theorem CountsAll.push (h : CountsAll R s) {k : Nat} {dl : PieceDownload}
    (hdl : s.pendingPieces[k]? = some dl) (hlt : dl.requested < dl.pieceLength)
    (hnew : dl.nextBlock k ∉ s.pendingBlocks) (inflight : Nat) :
    CountsAll R (s.push k dl inflight) := by
  intro j dl' hj
  rw [SeedDownloader.push_getElem?] at hj
  split at hj
  next heq =>
    rw [← Option.some.inj hj, ← heq, SeedDownloader.left_push hnew hlt]
    exact h k dl hdl
  next hne =>
    rw [SeedDownloader.left_push_ne (Ne.symm hne)]
    exact h j dl' hj

/-- Requests move blocks from those to request to the outstanding ones, and the sum
stays. -/
theorem CountsAll.requestPending (h : CountsAll R s) (p : Profile) (order : List Nat) (w : Wire) :
    (requestPending p order s w).Sat (fun sw => CountsAll R sw.1) (fun sw => CountsAll R sw.1)
      (fun _ => True) :=
  SeedDownloader.requestPending_invariant (I := CountsAll R)
    (fun _ _ _ inflight h hdl hlt hnew _ => h.push hdl hlt hnew inflight) order s w h

/-- A new piece comes with a count of its own. -/
theorem CountsAll.insert (h : CountsAll R s) {k : Nat} {dl : PieceDownload}
    (hR : R dl.remainingBlocks (s.left k dl)) (w : Wire) :
    CountsAll R (s.apply k ⟨dl, s.inflight, s.pendingBlocks, w⟩) := by
  intro j dl' hj
  rw [show (s.apply k _).pendingPieces = s.pendingPieces.insert k dl from rfl,
    SeedDownloader.insert_getElem?] at hj
  split at hj
  next heq =>
    rw [← Option.some.inj hj, ← heq]
    exact hR
  next => exact h j dl' hj

/-- The requests for a piece that is being started, in the same way. -/
theorem CountsAll.requestBlocks (h : CountsAll R s) (p : Profile) {k : Nat} {dl : PieceDownload}
    (hR : R dl.remainingBlocks (s.left k dl)) (w : Wire) :
    (requestBlocks p k ⟨dl, s.inflight, s.pendingBlocks, w⟩).Sat
      (fun r => CountsAll R (s.apply k r)) (fun r => CountsAll R (s.apply k r)) (fun _ => True) :=
  (SeedDownloader.apply_rule (I := CountsAll R)
    (fun _ _ inflight h hdl hlt hnew _ => h.push hdl hlt hnew inflight) _ (h.insert hR w)).mono
    (fun _ hr => hr.1) (fun _ hr => hr.1) (fun _ _ => trivial)

/-- A received block takes one from the count of its piece and of no other. -/
theorem CountsAll.block (h : CountsAll R s) {x : BlockDownload} {dl dl₁ : PieceDownload}
    (hx : x ∈ s.pendingBlocks) (hdl : s.pendingPieces[x.pieceIndex]? = some dl)
    (hp : s'.pendingPieces = s.pendingPieces.insert x.pieceIndex dl₁)
    (hb : s'.pendingBlocks = s.pendingBlocks.erase x)
    (hreq : dl₁.unrequested = dl.unrequested)
    (hphase : s'.phase = .complete x.pieceIndex ∨ ∀ k, s'.phase ≠ .complete k)
    (hdec : ∀ l, R dl.remainingBlocks (l + 1) →
      (s'.phase = .complete x.pieceIndex → C dl₁.remainingBlocks l) ∧
      (s'.phase ≠ .complete x.pieceIndex → R dl₁.remainingBlocks l)) : Counts R C s' := by
  intro k dl' hdl'
  rw [hp, SeedDownloader.insert_getElem?] at hdl'
  split at hdl'
  next heq =>
    subst heq
    obtain rfl := Option.some.inj hdl'
    have hleft : s'.left x.pieceIndex dl₁ + 1 = s.left x.pieceIndex dl := by
      rw [← show s'.left x.pieceIndex dl + 1 = s.left x.pieceIndex dl from
        SeedDownloader.left_erase hx hb]
      unfold SeedDownloader.left
      rw [hreq]
    exact hdec _ (by rw [hleft]; exact h _ dl hdl)
  next hne =>
    rw [SeedDownloader.left_erase_ne (Ne.symm hne) hb]
    refine ⟨fun hc => ?_, fun _ => h k dl' hdl'⟩
    rcases hphase with hph | hph
    · rw [hph] at hc
      exact absurd (Phase.complete.inj hc) hne
    · exact absurd hc (hph k)

/-- Without the piece that is complete, one relation holds of all. -/
theorem Counts.erase (h : Counts R C s) {index : Nat} (hs : s.phase = .complete index)
    (hp : s'.pendingPieces = s.pendingPieces.erase index)
    (hb : s'.pendingBlocks = s.pendingBlocks) : CountsAll R s' := by
  intro k dl hdl
  rw [hp, SeedDownloader.erase_getElem?] at hdl
  split at hdl
  next => cases hdl
  next hne =>
    rw [SeedDownloader.left_congr hb]
    refine (h k dl hdl).2 fun hc => hne ?_
    rw [hs] at hc
    exact Phase.complete.inj hc

/-- The counts are kept by every step, when `R` allows what a received block, a
reset and a new piece do to them. -/
theorem counts_step (hk : Known cfg s) (h : Counts R C s) (he : Effect cfg b s a s')
    (hlive : s'.Alive)
    (hdec : ∀ r r' l, R r (l + 1) → cfg.profile.sub 16 r 1 = some r' →
      (r' = 0 → C r' l) ∧ (r' ≠ 0 → R r' l))
    (hreset : ∀ k dl num, PieceKnown cfg k dl → numBlocks cfg.profile dl.pieceLength = some num →
      R (asU16 num) (blocksIn dl.pieceLength))
    (hstart : ∀ k dl, s.phase = .start k dl → R dl.remainingBlocks (s.left k dl)) :
    Counts R C s' := by
  cases he with
  | move hm =>
    exact CountsAll.counts ((h.all hm.not_complete.1).congr rfl rfl) hm.not_complete.2
  | @choke pieces hs hpieces =>
    refine CountsAll.counts (fun k dl' hdl' => ?_) fun k => (nomatch ·)
    obtain ⟨dl, num, hdl, hnum, rfl⟩ := resetPieces_eq_some hpieces hdl'
    have hleft := hreset k dl num (hk.piece k dl hdl) hnum
    rw [show blocksIn dl.pieceLength = 0 + blocksIn (dl.pieceLength - 0) by simp] at hleft
    exact hleft
  | unchoke hs hc =>
    have hall := h.all fun k => by rw [hs]; exact (nomatch ·)
    exact CountsAll.counts (hall.congr rfl rfl) fun k => (nomatch ·)
  | @orphan index begin block hs hmem hnone =>
    have hall := h.all fun k => by rw [hs]; exact (nomatch ·)
    refine CountsAll.counts (fun k dl hdl => ?_) fun k => (nomatch ·)
    have hne : k ≠ index.toNat := fun heq => by
      rw [heq] at hdl
      exact (nomatch hnone.symm.trans hdl)
    rw [SeedDownloader.left_erase_ne (s := s) hne rfl]
    exact hall k dl hdl
  | @block index begin block dl r i bytes hs hframed hmem hdl hrem hinf hsplice =>
    have hall := h.all fun k => by rw [hs]; exact (nomatch ·)
    have hphase : r = 0 ↔ (if r = 0 then Phase.complete index.toNat else .request) =
        .complete index.toNat := by
      by_cases hr : r = 0
      · rw [if_pos hr]; exact ⟨fun _ => rfl, fun _ => hr⟩
      · rw [if_neg hr]; exact ⟨fun h0 => absurd h0 hr, (nomatch ·)⟩
    refine hall.block hmem hdl rfl rfl rfl ?_ fun l hl => ?_
    · by_cases hr : r = 0
      · exact Or.inl (if_pos hr)
      · exact Or.inr fun k => by
          show (if r = 0 then Phase.complete index.toNat else .request) ≠ _
          rw [if_neg hr]; exact (nomatch ·)
    · have hnew := hdec _ _ _ hl hrem
      exact ⟨fun hc => hnew.1 (hphase.mpr hc), fun hc => hnew.2 fun h0 => hc (hphase.mp h0)⟩
  | valid hs hset hdl hvalid => exact CountsAll.counts (h.erase hs rfl rfl) fun k => (nomatch ·)
  | invalid hs hset hdl hvalid => exact CountsAll.counts (h.erase hs rfl rfl) fun k => (nomatch ·)
  | @request order sends s₁ w hs hc horder hreq =>
    have hall := h.all fun k => by rw [hs]; exact (nomatch ·)
    have hl := hall.requestPending cfg.profile order ⟨sends, []⟩
    rw [hreq] at hl
    refine CountsAll.counts hl fun k => ?_
    dsimp only [SeedDownloader.goto]
    split <;> exact (nomatch ·)
  | @requestFailed order sends s₁ w hs hc horder hreq =>
    have hall := h.all fun k => by rw [hs]; exact (nomatch ·)
    have hl := hall.requestPending cfg.profile order ⟨sends, []⟩
    rw [hreq] at hl
    exact CountsAll.counts hl fun k => (nomatch ·)
  | @start index dl sends r hs hdl hreq =>
    have hall := h.all fun k => by rw [hs]; exact (nomatch ·)
    have hl := hall.requestBlocks cfg.profile (hstart index dl hs) ⟨sends, []⟩
    rw [hreq] at hl
    exact CountsAll.counts hl fun k => (nomatch ·)
  | @startFailed index dl sends r hs hreq =>
    have hph := hk.phase
    rw [hs] at hph
    have hall := h.all fun k => by rw [hs]; exact (nomatch ·)
    have hl := hall.requestBlocks cfg.profile (hstart index dl hs) ⟨sends, []⟩
    rw [hreq] at hl
    refine CountsAll.counts (fun k dl' hdl' => ?_) fun k => (nomatch ·)
    refine hl k dl' ?_
    -- the piece that was being started is not pending
    rw [show (s.apply index r).pendingPieces = s.pendingPieces.insert index r.dl from rfl,
      SeedDownloader.insert_getElem?, if_neg]
    · exact hdl'
    · intro heq
      rw [← heq] at hdl'
      exact hph.1 (Std.ExtTreeMap.mem_iff_isSome_getElem?.mpr (by rw [hdl']; rfl))
  | panic hcause hs' => exact absurd hs' (hlive _)

/-! ## What the counter says in every run -/

/-- A count `r` of `l` blocks after truncation to 16 bits. -/
def Owed (r l : Nat) : Prop := r ≤ l ∧ (r = 0 → 2 ^ 16 ≤ l)

/-- A count stands for a block at least. -/
theorem Owed.pos {r l : Nat} (h : Owed r l) : 0 < l := by
  unfold Owed at h
  by_contra h0
  have hl : l = 0 := by omega
  have hr : r = 0 := by omega
  have := h.2 hr
  omega

/-- A block arrives, and the counter does not come to 0: it still counts what is left. -/
theorem Owed.sub {p : Profile} {r r' l : Nat} (h : Owed r (l + 1)) (hsub : p.sub 16 r 1 = some r')
    (hr' : r' ≠ 0) : Owed r' l := by
  refine ⟨?_, fun h0 => absurd h0 hr'⟩
  by_cases hr : r = 0
  · have hlt := Profile.sub_lt (by rw [hr]; exact Nat.two_pow_pos 16) hsub
    have := h.2 hr
    omega
  · rw [p.sub_of_le (by omega)] at hsub
    have := Option.some.inj hsub
    have := h.1
    omega

/-- The counter that a piece starts with. The cast to `u16` may have cut it off. -/
theorem owed_of_numBlocks {p : Profile} {len num : Nat} (hpos : 0 < len) (hlen : len < 2 ^ 32)
    (h : numBlocks p len = some num) : Owed (asU16 num) (blocksIn len) := by
  have hblocks := blocksIn_pos hpos
  have hmod : asU16 num < 2 ^ 16 := Nat.mod_lt _ (Nat.two_pow_pos 16)
  rcases numBlocks_eq hlen h with rfl | ⟨hlarge, -⟩
  · refine ⟨Nat.mod_le _ _, fun h0 => ?_⟩
    unfold asU16 at h0
    omega
  · have hB : blockSize = 16384 := rfl
    have hbig : 2 ^ 18 - 1 ≤ blocksIn len := by
      unfold blocksIn
      rw [hB] at hlarge ⊢
      omega
    exact ⟨by omega, fun _ => by omega⟩

theorem PieceKnown.owed {k : Nat} {dl : PieceDownload} (h : PieceKnown cfg k dl) {num : Nat}
    (hnum : numBlocks cfg.profile dl.pieceLength = some num) :
    Owed (asU16 num) (blocksIn dl.pieceLength) :=
  owed_of_numBlocks (h.length ▸ cfg.torrent.pieceLen_pos h.lt)
    (h.length ▸ cfg.torrent.pieceLen_lt k) hnum

/-- Every run keeps the truncated count. -/
theorem owed_step (hk : Known cfg s) (h : Counts Owed (fun _ _ => True) s)
    (he : Effect cfg b s a s')
    (hlive : s'.Alive) : Counts Owed (fun _ _ => True) s' := by
  refine counts_step hk h he hlive
    (fun r r' l hr hsub => ⟨fun _ => trivial, fun hr' => hr.sub hsub hr'⟩)
    (fun k dl num hdl hnum => hdl.owed hnum) (fun k dl hs => ?_)
  have hph := hk.phase
  rw [hs] at hph
  obtain ⟨-, hdl, hreq, num, hnum, hrem⟩ := hph
  have hle : blocksIn dl.pieceLength ≤ s.left k dl := by
    unfold SeedDownloader.left PieceDownload.unrequested
    rw [hreq, Nat.sub_zero]
    exact Nat.le_add_left _ _
  have howed := hdl.owed hnum
  rw [hrem]
  exact ⟨Nat.le_trans howed.1 hle, fun h0 => Nat.le_trans (howed.2 h0) hle⟩

end Counts

end BitTorrent
