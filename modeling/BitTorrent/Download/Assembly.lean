import BitTorrent.Download.Booked

/-!
# The assembly of a piece

`Filled W` follows what is written into the buffers: every byte of the requested
part of a pending piece that no outstanding block covers is one that `W` allows
there. With `Booked` it covers the whole buffer of a piece that is complete. The
relation `W` is a parameter: here it is "a block received since the last reset
carried this byte" (`WrittenSince`), and `blocks_booked` collects what then holds
in every state of every run with sends that succeed. For the whole download it is
"this is the byte of the file" (`SeedKept`).

A request moves `requested` over a block that is outstanding from then on. A block
that arrives is no longer outstanding, and its bytes are written in the same step.
After a choke nothing counts as requested, and what is left in the buffer from
before is not looked at.

`Paired` says that every outstanding block has a pending piece. It needs sends that
succeed: a piece whose first batch fails is never pending, and its blocks stay.
-/

namespace BitTorrent

/-- No outstanding block of the piece covers the offset. -/
def SeedDownloader.Free (s : SeedDownloader) (k o : Nat) : Prop :=
  ∀ x ∈ s.pendingBlocks, x.pieceIndex = k → o < x.blockBegin ∨ x.blockBegin + x.blockLen ≤ o

/-- The bytes that were requested and are not outstanding are as `W` says. -/
def Filled (W : Nat → Nat → UInt8 → Prop) (s : SeedDownloader) : Prop :=
  ∀ k dl, s.pendingPieces[k]? = some dl → ∀ o, o < dl.requested → s.Free k o →
    ∃ byte, dl.bytes[o]? = some byte ∧ W k o byte

/-- Every outstanding block has a pending piece. -/
def Paired (s : SeedDownloader) : Prop :=
  ∀ x ∈ s.pendingBlocks, ∃ dl, s.pendingPieces[x.pieceIndex]? = some dl

/-- No send of the step fails. -/
def SeedAct.SendsSucceed : SeedAct → Prop
  | .request _ sends | .start sends => sends = none
  | .sendErr => False
  | _ => True

instance : ∀ a : SeedAct, Decidable a.SendsSucceed
  | .request _ sends | .start sends => inferInstanceAs (Decidable (sends = none))
  | .sendErr => isFalse id
  | .check | .keepAlive _ | .streamEnd | .streamError | .deliver _ | .setPiece | .sendOk
  | .release | .pick => isTrue trivial

/-- The other downloaders' steps send nothing of ours. -/
def SoloAct.SendsSucceed : SoloAct → Prop
  | .own a => a.SendsSucceed
  | .other _ => True

instance : ∀ a : SoloAct, Decidable a.SendsSucceed
  | .own a => inferInstanceAs (Decidable a.SendsSucceed)
  | .other _ => isTrue trivial

section Assembly

variable {cfg : Config} {b : Bitfield} {s s' : SeedDownloader} {a : SeedAct}
variable {W W' : Nat → Nat → UInt8 → Prop}

/-! ## The buffers -/

/-- The bytes are still there under a weaker reading, as long as it is weaker for
the pending pieces. -/
theorem Filled.mono (h : Filled W s) (hW : ∀ k o byte, s.pendingPieces[k]? ≠ none → W k o byte →
      W' k o byte) : Filled W' s := by
  intro k dl hdl o ho hfree
  obtain ⟨byte, hbyte, hw⟩ := h k dl hdl o ho hfree
  exact ⟨byte, hbyte, hW k o byte (by rw [hdl]; exact (nomatch ·)) hw⟩

theorem Filled.sub (h : Filled W s) (hp : ∀ (k : Nat) (dl : PieceDownload),
      s'.pendingPieces[k]? = some dl → s.pendingPieces[k]? = some dl)
    (hb : s'.pendingBlocks = s.pendingBlocks) : Filled W s' := by
  intro k dl hdl o ho hfree
  unfold SeedDownloader.Free at hfree
  rw [hb] at hfree
  exact h k dl (hp k dl hdl) o ho hfree

/-- What a request adds to the requested part is outstanding. -/
theorem Filled.push (h : Filled W s) {k : Nat} {dl : PieceDownload}
    (hdl : s.pendingPieces[k]? = some dl) (inflight : Nat) : Filled W (s.push k dl inflight) := by
  intro j dl' hj o ho hfree
  have hold : s.Free j o := fun x hx => hfree x (Finset.mem_insert_of_mem hx)
  rw [SeedDownloader.push_getElem?] at hj
  split at hj
  next heq =>
    subst heq
    rw [← Option.some.inj hj] at ho ⊢
    have hnext := hfree (dl.nextBlock k) (Finset.mem_insert_self ..) rfl
    change o < dl.requested + (dl.nextBlock k).blockLen at ho
    change o < dl.requested ∨ dl.requested + (dl.nextBlock k).blockLen ≤ o at hnext
    exact h k dl hdl o (by omega) hold
  next => exact h j dl' hj o ho hold

/-- Requests move `requested` over bytes that are outstanding from then on. -/
theorem Filled.requestPending (h : Filled W s) (p : Profile) (order : List Nat) (w : Wire) :
    (requestPending p order s w).Sat (fun sw => Filled W sw.1) (fun sw => Filled W sw.1)
      (fun _ => True) :=
  SeedDownloader.requestPending_invariant (I := Filled W)
    (fun _ _ _ inflight h hdl _ _ _ => h.push hdl inflight) order s w h

/-- The requests of a new piece fill nothing. -/
theorem Filled.requestBlocks (h : Filled W s) (p : Profile) {k : Nat} {dl : PieceDownload}
    (hreq : dl.requested = 0) (w : Wire) :
    (requestBlocks p k ⟨dl, s.inflight, s.pendingBlocks, w⟩).Sat
      (fun r => Filled (fun j o byte => j ≠ k ∧ W j o byte) (s.apply k r))
      (fun r => Filled (fun j o byte => j ≠ k ∧ W j o byte) (s.apply k r)) (fun _ => True) := by
  refine (SeedDownloader.apply_rule (I := Filled fun j o byte => j ≠ k ∧ W j o byte)
    (fun _ _ inflight h hdl _ _ _ => h.push hdl inflight) _ ?_).mono
    (fun _ hr => hr.1) (fun _ hr => hr.1) (fun _ _ => trivial)
  intro j dl' hj o ho hfree
  rw [show (s.apply k _).pendingPieces = s.pendingPieces.insert k dl from rfl,
    SeedDownloader.insert_getElem?] at hj
  split at hj
  next =>
    rw [← Option.some.inj hj, hreq] at ho
    exact absurd ho (Nat.not_lt_zero o)
  next hne =>
    obtain ⟨byte, hbyte, hw⟩ := h j dl' hj o ho hfree
    exact ⟨byte, hbyte, Ne.symm hne, hw⟩

/-- A received block fills the offsets it covered, with its own bytes. -/
theorem Filled.block (h : Filled W s) {k begin : Nat} {block : List UInt8} {x : BlockDownload}
    {dl : PieceDownload} (dl₁ : PieceDownload) (hx : x = ⟨k, begin, block.length⟩)
    (hdl : s.pendingPieces[k]? = some dl)
    (hsplice : splice dl.bytes begin (begin + block.length) block = some dl₁.bytes)
    (hreq : dl₁.requested = dl.requested)
    (hp : s'.pendingPieces = s.pendingPieces.insert k dl₁)
    (hb : s'.pendingBlocks = s.pendingBlocks.erase x)
    (hblock : ∀ i byte, block[i]? = some byte → W' k (begin + i) byte)
    (hkeep : ∀ j o byte, W j o byte → W' j o byte) : Filled W' s' := by
  intro j dl' hj o ho hfree
  -- an offset that only the received block covers was not free before
  have hold : (j ≠ k ∨ o < begin ∨ begin + block.length ≤ o) → s.Free j o := by
    intro hout y hy hyj
    by_cases hyx : y = x
    · subst hyx
      rw [hx] at hyj ⊢
      exact hout.resolve_left fun hne => hne hyj.symm
    · exact hfree y (hb ▸ Finset.mem_erase.mpr ⟨hyx, hy⟩) hyj
  rw [hp, SeedDownloader.insert_getElem?] at hj
  split at hj
  next heq =>
    subst heq
    obtain rfl := Option.some.inj hj
    have hlen : block.length = begin + block.length - begin := by omega
    by_cases hin : begin ≤ o ∧ o < begin + block.length
    · obtain ⟨byte, hbyte⟩ : ∃ byte, block[o - begin]? = some byte :=
        ⟨_, List.getElem?_eq_getElem (by omega)⟩
      refine ⟨byte, ?_, ?_⟩
      · rw [splice_getElem?_mem hsplice hlen hin.1 hin.2]
        exact hbyte
      · have hw := hblock _ _ hbyte
        rwa [show begin + (o - begin) = o by omega] at hw
    · have hout : o < begin ∨ begin + block.length ≤ o := by omega
      obtain ⟨byte, hbyte, hw⟩ := h k dl hdl o (hreq ▸ ho) (hold (Or.inr hout))
      refine ⟨byte, ?_, hkeep k o byte hw⟩
      rw [splice_getElem?_not_mem hsplice hlen hout]
      exact hbyte
  next hne =>
    obtain ⟨byte, hbyte, hw⟩ := h j dl' hj o ho (hold (Or.inl (Ne.symm hne)))
    exact ⟨byte, hbyte, hkeep j o byte hw⟩

theorem Moves.not_start {ph : Phase} (h : Moves cfg b s a ph) (k : Nat) (dl : PieceDownload) :
    s.phase ≠ .start k dl := by
  cases h with
  | finish hs | listen hs | ignore hs | streamEnd hs | sendOk hs | sendErr hs | leave hs
  | release hs | choked hs | pickNone hs | pickPending hs | pickNew hs =>
    rw [hs]; simp

/-- Only `start` is taken where a piece is started. -/
theorem Effect.start_of_phase (he : Effect cfg b s a s') {i : Nat} {dl : PieceDownload}
    (hs : s.phase = .start i dl) : ∃ sends, a = .start sends := by
  cases he with
  | move hm => exact absurd hs (hm.not_start i dl)
  | choke hs' | unchoke hs' | orphan hs' | block hs' | valid hs' | invalid hs' | request hs'
  | requestFailed hs' => rw [hs] at hs'; cases hs'
  | start | startFailed => exact ⟨_, rfl⟩
  | panic hcause hpanic =>
    cases hcause with
    | remaining hs' | choke hs' | remainingBlocks hs' | inflight hs' | splice hs'
    | notImplemented hs' | set hs' | notPending hs' | request hs' | pick hs' | newPiece hs' =>
      rw [hs] at hs'; cases hs'
    | start | alreadyPending => exact ⟨_, rfl⟩

/-- What is written into the buffers stays there until the piece is reset or
started anew. -/
theorem filled_step (hk : Known cfg s) (h : Filled W s) (he : Effect cfg b s a s')
    (hlive : s'.Alive)
    (hblock : ∀ index begin block, a = .deliver (.piece index begin block) →
      (Message.piece index begin block).Framed → .received index begin block ∈ s.pendingBlocks →
      ∀ i byte, block[i]? = some byte → W' index.toNat (begin.toNat + i) byte)
    (hkeep : ∀ k o byte, a ≠ .deliver .choke → (∀ dl, s.phase ≠ .start k dl) → W k o byte →
      W' k o byte) : Filled W' s' := by
  cases he with
  | move hm =>
    by_cases hchoke : a = .deliver .choke
    · -- a choke is never ignored
      subst hchoke
      cases hm with
      | ignore hs ha => exact absurd ha (fun h => h)
      | leave hs ha => rcases ha with ha | ha <;> cases ha
    · exact (h.sub (fun _ _ hdl => hdl) rfl).mono
        fun k o byte _ hw => hkeep k o byte hchoke (hm.not_start k) hw
  -- nothing is requested of a piece that is reset
  | choke hs hreset =>
    intro k dl' hdl' o ho
    obtain ⟨dl, num, -, -, rfl⟩ := resetPieces_eq_some hreset hdl'
    exact absurd ho (Nat.not_lt_zero o)
  | unchoke hs hc =>
    exact (h.sub (fun _ _ hdl => hdl) rfl).mono
      fun k o byte _ hw => hkeep k o byte (by simp) (fun dl => by rw [hs]; simp) hw
  -- the block belongs to no pending piece
  | @orphan index begin block hs hmem hnone =>
    intro k dl hdl o ho hfree
    have hne : index.toNat ≠ k := fun heq => by
      dsimp only at hdl
      rw [← heq, hnone] at hdl
      cases hdl
    have hold : s.Free k o := by
      intro y hy hyk
      by_cases hyx : y = .received index begin block
      · subst hyx
        exact absurd hyk hne
      · exact hfree y (Finset.mem_erase.mpr ⟨hyx, hy⟩) hyk
    obtain ⟨byte, hbyte, hw⟩ := h k dl hdl o ho hold
    exact ⟨byte, hbyte, hkeep k o byte (by simp) (fun dl => by rw [hs]; simp) hw⟩
  | @block index begin block dl r inflight bytes hs hframed hmem hdl hrem hinf hsplice =>
    have hlen : asU32 block.length = block.length :=
      asU32_of_lt (by have : block.length + 9 < 2 ^ 32 := hframed; omega)
    refine h.block { dl with remainingBlocks := r, bytes } ?_ hdl hsplice rfl rfl rfl
      (hblock index begin block rfl hframed hmem)
      fun k o byte hw => hkeep k o byte (by simp) (fun dl => by rw [hs]; simp) hw
    unfold BlockDownload.received
    rw [hlen]
  | @valid index dl hs hset hdl hvalid =>
    refine Filled.mono (h.sub (fun k dl' hdl' => ?_) rfl)
      fun k o byte _ hw => hkeep k o byte (by simp) (fun dl => by rw [hs]; simp) hw
    rw [SeedDownloader.erase_getElem?] at hdl'
    split at hdl'
    next => cases hdl'
    next => exact hdl'
  | @invalid index dl hs hset hdl hvalid =>
    refine Filled.mono (h.sub (fun k dl' hdl' => ?_) rfl)
      fun k o byte _ hw => hkeep k o byte (by simp) (fun dl => by rw [hs]; simp) hw
    rw [SeedDownloader.erase_getElem?] at hdl'
    split at hdl'
    next => cases hdl'
    next => exact hdl'
  | @request order sends s₁ w hs hc horder hreq =>
    have hl := h.requestPending cfg.profile order ⟨sends, []⟩
    rw [hreq] at hl
    exact Filled.mono (Filled.sub hl (fun _ _ hdl => hdl) rfl)
      fun k o byte _ hw => hkeep k o byte (by simp) (fun dl => by rw [hs]; simp) hw
  | @requestFailed order sends s₁ w hs hc horder hreq =>
    have hl := h.requestPending cfg.profile order ⟨sends, []⟩
    rw [hreq] at hl
    exact Filled.mono (Filled.sub hl (fun _ _ hdl => hdl) rfl)
      fun k o byte _ hw => hkeep k o byte (by simp) (fun dl => by rw [hs]; simp) hw
  -- the piece is not pending yet, and none of its bytes is requested
  | @start index dl sends r hs hdl hreq =>
    have hph := hk.phase
    rw [hs] at hph
    have hl := h.requestBlocks cfg.profile (k := index) hph.2.2.1 ⟨sends, []⟩
    rw [hreq] at hl
    refine Filled.mono (Filled.sub hl (fun _ _ hdl => hdl) rfl) fun k o byte _ hw =>
      hkeep k o byte (by simp) (fun dl' hs' => ?_) hw.2
    rw [hs] at hs'
    exact hw.1 (Phase.start.inj hs').1.symm
  | @startFailed index dl sends r hs hreq =>
    have hph := hk.phase
    rw [hs] at hph
    have hl := h.requestBlocks cfg.profile (k := index) hph.2.2.1 ⟨sends, []⟩
    rw [hreq] at hl
    refine Filled.mono (Filled.sub hl (fun k dl' hdl' => ?_) rfl) fun k o byte _ hw =>
      hkeep k o byte (by simp) (fun dl' hs' => ?_) hw.2
    · have hne : index ≠ k := fun heq => hph.1
        (Std.ExtTreeMap.mem_iff_isSome_getElem?.mpr (by rw [heq]; rw [hdl']; rfl))
      rw [show (s.apply index r).pendingPieces = s.pendingPieces.insert index r.dl from rfl,
        SeedDownloader.insert_getElem?, if_neg hne]
      exact hdl'
    · rw [hs] at hs'
      exact hw.1 (Phase.start.inj hs').1.symm
  | panic hcause hs' => exact absurd hs' (hlive _)

/-- In a piece that is complete every byte was written. -/
theorem Booked.complete_filled (h : Booked cfg s) (hf : Filled W s) {k : Nat}
    (hs : s.phase = .complete k) : ∃ dl, s.pendingPieces[k]? = some dl ∧ dl.remainingBlocks = 0 ∧
      ∀ o, o < dl.pieceLength → ∃ byte, dl.bytes[o]? = some byte ∧ W k o byte := by
  have hph := h.phase
  rw [hs] at hph
  obtain ⟨dl, hdl⟩ := hph
  obtain ⟨hrem, hleft⟩ := (h.counts k dl hdl).1 hs
  have hout : s.outstanding k = ∅ :=
    Finset.card_eq_zero.mp (Nat.eq_zero_of_add_eq_zero_right hleft)
  have hfull : dl.pieceLength - dl.requested = 0 :=
    blocksIn_eq_zero (Nat.eq_zero_of_add_eq_zero_left hleft)
  refine ⟨dl, hdl, hrem, fun o ho => hf k dl hdl o (by omega) fun x hx hxk => ?_⟩
  have hmem : x ∈ s.outstanding k := SeedDownloader.mem_outstanding.mpr ⟨hx, hxk⟩
  rw [hout] at hmem
  cases hmem

/-! ## Runs with sends that succeed -/

/-- A stream that takes every message fails no batch of requests. -/
theorem requestBlocks_not_failed (p : Profile) (k : Nat) {r : Requests}
    (hsends : r.wire.sends = none) :
    (requestBlocks p k r).Sat (fun r' => r'.wire.sends = none) (fun _ => False)
      (fun _ => True) := by
  refine (requestBlocks_rule (p := p) (k := k) (P := fun r => r.wire.sends = none)
    (Q := fun r => r.wire.sends = none)
    (fun r inflight wire hr _ _ _ hsend => Wire.sends_of_sent hsend hr)
    (fun _ hr _ => hr) (fun _ hr _ => hr) r hsends).mono (fun _ hr => hr.1) (fun r' hr => ?_)
    (fun _ _ => trivial)
  have hnone := hr.1
  rw [hr.2.2] at hnone
  cases hnone

theorem requestPending_not_failed (p : Profile) (order : List Nat) (s : SeedDownloader)
    {w : Wire} (hsends : w.sends = none) :
    (requestPending p order s w).Sat (fun sw => sw.2.sends = none) (fun _ => False)
      (fun _ => True) :=
  requestPending_rule (I := fun _ _ w => w.sends = none) (F := fun _ _ => False)
    (fun _ _ _ _ h _ => h) (fun _ _ _ _ _ _ _ _ => ⟨fun _ => trivial, fun _ => trivial⟩)
    (fun k _ _ _ _ h _ _ => (requestBlocks_not_failed p k h).mono (fun _ hr => hr)
      (fun _ hr => hr) (fun _ _ => trivial)) order s w hsends

/-- A request is for a piece that is pending. -/
theorem Paired.push (h : Paired s) (k : Nat) (dl : PieceDownload) (inflight : Nat) :
    Paired (s.push k dl inflight) := by
  intro x hx
  rw [SeedDownloader.push_getElem?]
  split
  · exact ⟨_, rfl⟩
  next hne =>
    rcases Finset.mem_insert.mp hx with rfl | hx
    · exact absurd rfl hne
    · exact h x hx

theorem Paired.sub (h : Paired s) (hp : ∀ (k : Nat) (dl : PieceDownload),
      s.pendingPieces[k]? = some dl → ∃ dl' : PieceDownload, s'.pendingPieces[k]? = some dl')
    (hb : s'.pendingBlocks ⊆ s.pendingBlocks) : Paired s' := by
  intro x hx
  obtain ⟨dl, hdl⟩ := h x (hb hx)
  exact hp _ dl hdl

/-- A piece that leaves with no outstanding block. -/
theorem Paired.erase (h : Paired s) {k : Nat} (hout : s.outstanding k = ∅)
    (hp : s'.pendingPieces = s.pendingPieces.erase k)
    (hblocks : s'.pendingBlocks = s.pendingBlocks) :
    Paired s' := by
  intro x hx
  rw [hblocks] at hx
  obtain ⟨dl, hdl⟩ := h x hx
  rw [hp, SeedDownloader.erase_getElem?, if_neg]
  · exact ⟨dl, hdl⟩
  · intro heq
    subst heq
    have hmem : x ∈ s.outstanding x.pieceIndex := SeedDownloader.mem_outstanding.mpr ⟨hx, rfl⟩
    rw [hout] at hmem
    cases hmem

/-- A piece that is complete has no outstanding block to leave behind. -/
theorem Booked.outstanding_complete (hb : Booked cfg s) {k : Nat} (hs : s.phase = .complete k) :
    s.outstanding k = ∅ := by
  have hph := hb.phase
  rw [hs] at hph
  obtain ⟨dl, hdl⟩ := hph
  have hleft := ((hb.counts _ dl hdl).1 hs).2
  exact Finset.card_eq_zero.mp (Nat.eq_zero_of_add_eq_zero_right hleft)

/-- Starting a piece leaves every block with its piece. -/
theorem Paired.insert (h : Paired s) (k : Nat) (dl : PieceDownload) (w : Wire) :
    Paired (s.apply k ⟨dl, s.inflight, s.pendingBlocks, w⟩) := by
  intro x hx
  rw [show (s.apply k _).pendingPieces = s.pendingPieces.insert k dl from rfl,
    SeedDownloader.insert_getElem?]
  split
  · exact ⟨_, rfl⟩
  · exact h x hx

/-- The blocks stay paired with pieces, when a complete piece leaves none behind and
neither does the failed start of a piece. -/
theorem paired_step (h : Paired s) (he : Effect cfg b s a s') (hlive : s'.Alive)
    (hcomplete : ∀ k, a = .setPiece → s.phase = .complete k → (b.set k).2 = .returned () →
      s.outstanding k = ∅)
    (hfailed : ∀ k dl sends r, s.phase = .start k dl → a = .start sends →
      requestBlocks cfg.profile k ⟨dl, s.inflight, s.pendingBlocks, ⟨sends, []⟩⟩ = .sendFailed r →
      r.blocks = s.pendingBlocks) : Paired s' := by
  cases he with
  | move hm => exact h.sub (fun _ dl hdl => ⟨dl, hdl⟩) (Finset.Subset.refl _)
  | choke hs hreset => exact fun x hx => by cases hx
  | unchoke hs hc => exact h.sub (fun _ dl hdl => ⟨dl, hdl⟩) (Finset.Subset.refl _)
  | orphan hs hmem hdl => exact h.sub (fun _ dl hdl => ⟨dl, hdl⟩) (Finset.erase_subset _ _)
  | block hs hframed hmem hdl hrem hinf hsplice =>
    refine h.sub (fun k dl' hdl' => ?_) (Finset.erase_subset _ _)
    dsimp only
    rw [SeedDownloader.insert_getElem?]
    split
    · exact ⟨_, rfl⟩
    · exact ⟨dl', hdl'⟩
  | valid hs hset hdl hvalid => exact h.erase (hcomplete _ rfl hs hset) rfl rfl
  | invalid hs hset hdl hvalid => exact h.erase (hcomplete _ rfl hs hset) rfl rfl
  | @request order sends s₁ w hs hc horder hreq =>
    have hl := SeedDownloader.requestPending_invariant (p := cfg.profile) (I := Paired)
      (fun k _ dl inflight h _ _ _ _ => h.push k dl inflight) order s ⟨sends, []⟩ h
    rw [hreq] at hl
    exact hl
  | @requestFailed order sends s₁ w hs hc horder hreq =>
    have hl := SeedDownloader.requestPending_invariant (p := cfg.profile) (I := Paired)
      (fun k _ dl inflight h _ _ _ _ => h.push k dl inflight) order s ⟨sends, []⟩ h
    rw [hreq] at hl
    exact hl
  | @start index dl sends r hs hdl hreq =>
    have hl := SeedDownloader.apply_rule (p := cfg.profile) (k := index) (I := Paired)
      (fun _ dl inflight h _ _ _ _ => h.push index dl inflight) _ (h.insert index dl ⟨sends, []⟩)
    rw [hreq] at hl
    exact hl.1
  | @startFailed index dl sends r hs hreq =>
    have hblocks := hfailed index dl sends r hs rfl hreq
    exact h.sub (fun _ dl hdl => ⟨dl, hdl⟩) (Finset.subset_of_eq hblocks)
  | panic hcause hs' => exact absurd hs' (hlive _)

/-- With every outstanding block paired, a new piece has none. -/
theorem Paired.fresh (h : Paired s) (hk : Known cfg s) : s.Fresh := by
  intro k dl hs
  have hph := hk.phase
  rw [hs] at hph
  refine Finset.eq_empty_of_forall_notMem fun x hx => ?_
  obtain ⟨hx, hxk⟩ := SeedDownloader.mem_outstanding.mp hx
  obtain ⟨dl', hdl'⟩ := h x hx
  rw [hxk] at hdl'
  exact hph.1 (Std.ExtTreeMap.mem_iff_isSome_getElem?.mpr (by rw [hdl']; rfl))

end Assembly

end BitTorrent
