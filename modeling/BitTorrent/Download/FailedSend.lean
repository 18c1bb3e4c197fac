import BitTorrent.Download.Assembly
import BitTorrent.Download.Inflight

/-!
# When a send fails

A send can fail in the middle of a batch of requests. For a pending piece this
does no harm: the blocks that were requested before are outstanding and the
piece is there. A new piece becomes pending only after its whole batch, so
`startPiece` loses it when a send fails, and keeps its blocks.

`failed_send_consistent_iff`: pieces, blocks and the counter stay consistent in a
run exactly when every failed batch of a new piece fails at its first message,
no choke finds an outstanding request, and no piece is completed while blocks of
it are outstanding. The second part is about the counter that a choke does not
reset, the last one about pieces of 65536 blocks or more.

`FailsClean` is the condition on the state before a step, and the equivalence is
proved step by step: a step that meets it keeps the invariant (`steady_step`), and
a step into a consistent state has met it (`failsClean_of_consistent`).

As long as the state is consistent, no block arrives for a piece that is not
pending, so the error for such a block is never returned (`NoOrphan`).
-/

namespace BitTorrent

/-- The piece that was picked and has no request yet. -/
def SeedDownloader.starting (s : SeedDownloader) : Option (Nat × PieceDownload) :=
  match s.phase with
  | .start k dl => some (k, dl)
  | _ => none

/-- The step leaves no block without its piece and no count without its block. -/
def FailsClean (σ : Solo) : SoloAct → Prop
  | .own (.deliver .choke) => σ.seed.phase = .select → σ.seed.pendingBlocks = ∅
  | .own .setPiece => ∀ e ∈ σ.seed.completing,
    σ.seed.outstanding e.1 = ∅ ∨ ¬ σ.bitfield.Owns e.1 ∧ σ.bitfield.Closes e.1
  | .own (.start (some m)) => ∀ e ∈ σ.seed.starting,
    m = 0 ∨ min e.2.unrequested (maxInflightPerPeer - σ.seed.inflight) ≤ m
  | _ => True

/-- Every outstanding block has its piece, the counter counts the outstanding
blocks, and no block was found to be requested already. -/
def Solo.Consistent (σ : Solo) : Prop :=
  (σ.seed.Alive → Paired σ.seed ∧ σ.seed.inflight = σ.seed.pendingBlocks.card) ∧
  σ.seed.phase ≠ .panicked .blockAlreadyRequested

/-- The step does not report a block of a piece that was not requested. -/
def NoOrphan (cfg : Config) (σ : Solo) : SoloAct → Prop
  | .own a => ∀ out, seedStep cfg σ.bitfield σ.seed a = some out →
    ∀ k, out.error ≠ some (.unrequestedPiece k)
  | .other _ => True

instance (s : SeedDownloader) : Decidable (Paired s) :=
  decidable_of_iff (∀ x ∈ s.pendingBlocks, x.pieceIndex ∈ s.pendingPieces) <| by
    simp only [Paired, Std.ExtTreeMap.mem_iff_isSome_getElem?, Option.isSome_iff_exists]

instance (σ : Solo) : Decidable σ.Consistent := inferInstanceAs (Decidable (_ ∧ _))

section FailedSend

variable {cfg : Config} {b : Bitfield} {s s' : SeedDownloader} {a : SeedAct} {σ σ' : Solo}

/-! ## One batch of requests -/

/-- A stream that takes `m` more messages fails a batch of requests exactly when
more are wanted. What a failed batch leaves behind is the blocks it was sent. -/
theorem requestBlocks_sends (p : Profile) (k : Nat) {r : Requests} {m : Nat}
    (hsends : r.wire.sends = some m) (hlt : r.inflight < maxInflightPerPeer) :
    (requestBlocks p k r).Sat
      (fun _ => min r.dl.unrequested (maxInflightPerPeer - r.inflight) ≤ m)
      (fun r' => m < min r.dl.unrequested (maxInflightPerPeer - r.inflight) ∧
        (m = 0 → r'.blocks = r.blocks) ∧ (m ≠ 0 → r.dl.nextBlock k ∈ r'.blocks))
      (fun e => e = .blockAlreadyRequested) := by
  have hmax : maxInflightPerPeer = 5 := rfl
  -- after `i` messages
  let After : Requests → Nat → Prop := fun r' i =>
    r'.wire.sends = some (m - i) ∧ i ≤ m ∧ r'.inflight = r.inflight + i ∧
      r'.dl.unrequested + i = r.dl.unrequested ∧ (i = 0 → r' = r) ∧
      (i ≠ 0 → r.dl.nextBlock k ∈ r'.blocks)
  refine (requestBlocks_rule (p := p) (k := k)
    (P := fun r' => r'.inflight < maxInflightPerPeer ∧ ∃ i, After r' i)
    (Q := fun r' => r'.inflight ≤ maxInflightPerPeer ∧ ∃ i, After r' i)
    ?push (fun r' hr hne => ⟨Nat.lt_of_le_of_ne hr.1 hne, hr.2⟩)
    (fun r' hr _ => ⟨Nat.le_of_lt hr.1, hr.2⟩) r
    ⟨hlt, 0, hsends, Nat.zero_le _, rfl, rfl, fun _ => rfl, fun h => absurd rfl h⟩).mono ?ok ?failed
    ?panicked
  case push =>
    intro r' inflight wire hp hreq hnew hadd hsend
    obtain ⟨hlt', i, hs, hi, hc, hu, h0, hmem⟩ := hp
    rw [p.add_of_lt (by omega)] at hadd
    obtain rfl := Option.some.inj hadd
    obtain ⟨-, hnone | ⟨j, hj, hj'⟩⟩ := Wire.send_cases hsend
    · rw [hs] at hnone
      cases hnone.1
    · rw [hs] at hj
      have hj := Option.some.inj hj
      have hun := SeedDownloader.unrequested_advance hreq k
      refine ⟨hlt', i + 1, hj'.trans (by congr 1; omega), by omega, ?_, ?_,
        fun h => absurd h (Nat.succ_ne_zero i), fun _ => ?_⟩
      · show r'.inflight + 1 = _
        omega
      · show (r'.dl.advance k).unrequested + (i + 1) = _
        omega
      · show _ ∈ insert _ r'.blocks
        by_cases hi0 : i = 0
        · rw [h0 hi0]
          exact Finset.mem_insert_self ..
        · exact Finset.mem_insert_of_mem (hmem hi0)
  case ok =>
    intro r' hp
    obtain ⟨⟨hle, i, hs, hi, hc, hu, -⟩, hend⟩ := hp
    rcases hend with hdone | hfull
    · have := PieceDownload.unrequested_of_le hdone
      omega
    · omega
  case failed =>
    intro r' hp
    obtain ⟨⟨hlt', i, hs, hi, hc, hu, h0, hmem⟩, hreq, hnone⟩ := hp
    have hun := SeedDownloader.unrequested_advance hreq k
    rw [hs] at hnone
    have hm : i = m := by have := Option.some.inj hnone; omega
    subst hm
    exact ⟨by omega, fun h => by rw [h0 h], hmem⟩
  case panicked =>
    intro e hp
    obtain ⟨r', ⟨hlt', -⟩, -, he⟩ := hp
    rcases he with ⟨rfl, -⟩ | ⟨rfl, hadd⟩
    · rfl
    · rw [p.add_of_lt (by omega)] at hadd
      cases hadd

/-- A failed start that fails clean leaves the blocks as they were. -/
theorem blocks_of_failed {k : Nat} {dl : PieceDownload} {sends : Option Nat} {r : Requests}
    (hlt : s.inflight < maxInflightPerPeer)
    (hok : ∀ m, sends = some m →
      m = 0 ∨ min dl.unrequested (maxInflightPerPeer - s.inflight) ≤ m)
    (hreq : requestBlocks cfg.profile k ⟨dl, s.inflight, s.pendingBlocks, ⟨sends, []⟩⟩ =
      .sendFailed r) : r.blocks = s.pendingBlocks := by
  cases sends with
  | none =>
    have hl := requestBlocks_not_failed cfg.profile k
      (r := ⟨dl, s.inflight, s.pendingBlocks, ⟨none, []⟩⟩) rfl
    rw [hreq] at hl
    exact hl.elim
  | some m =>
    have hl := requestBlocks_sends cfg.profile k
      (r := ⟨dl, s.inflight, s.pendingBlocks, ⟨some m, []⟩⟩) rfl hlt
    rw [hreq] at hl
    exact hl.2.1 ((hok m rfl).resolve_right (Nat.not_le.mpr hl.1))

/-! ## Steps -/

/-- With every block in the requested part of its piece, none is requested twice. -/
theorem Begun.not_requested (h : Begun s) (hfresh : s.Fresh) :
    ¬ Cause cfg b s a .blockAlreadyRequested := by
  intro hcause
  cases hcause with
  | @request order sends e sw hs hc horder hreq =>
    have hl := h.requestPending cfg.profile order ⟨sends, []⟩
    rw [hreq] at hl
    exact hl rfl
  | newPiece hs hb hnew => rcases newPiece_error hnew with h | h | h <;> cases h
  | @start index dl sends e r hs hreq =>
    have hl := begun_apply (p := cfg.profile) (h.start (hfresh index dl hs) dl ⟨sends, []⟩)
    rw [hreq] at hl
    exact hl rfl

/-- A block is reported as unrequested when it is outstanding without a piece. -/
theorem orphan_of_msg {msg : Message} {k : Nat}
    (hk : (s.handleMsg cfg msg).2 = some (.unrequestedPiece k)) :
    ∃ x ∈ s.pendingBlocks, s.pendingPieces[x.pieceIndex]? = none := by
  cases msg with
  | piece index begin block =>
    simp only [SeedDownloader.handleMsg] at hk
    by_cases hmem : BlockDownload.received index begin block ∈ s.pendingBlocks
    · rw [if_pos hmem] at hk
      cases hdl : s.pendingPieces[index.toNat]? with
      | none => exact ⟨_, hmem, hdl⟩
      | some dl => rw [hdl] at hk; cases hk
    · rw [if_neg hmem] at hk
      cases hk
  | unchoke =>
    simp only [SeedDownloader.handleMsg] at hk
    split at hk <;> cases hk
  | keepAlive | choke | interested | notInterested | «have» | bitfield | request | cancel =>
    cases hk

/-- The error about a piece that was not requested is for a block without a piece. -/
theorem orphan_of_step {out : SeedOut} {k : Nat} (h : seedStep cfg b s a = some out)
    (hk : out.error = some (.unrequestedPiece k)) :
    ∃ x ∈ s.pendingBlocks, s.pendingPieces[x.pieceIndex]? = none := by
  cases a with
  | deliver msg =>
    simp only [seedStep] at h
    split at h
    next =>
      split at h
      next =>
        obtain rfl := Option.some.inj h
        exact orphan_of_msg hk
      next => cases h
    next => cases h
  -- no other step reports this error
  | setPiece =>
    simp only [seedStep] at h
    split at h
    next =>
      unfold SeedDownloader.setPiece at h
      split at h
      next => cases h
      next => obtain rfl := Option.some.inj h; cases hk
      next =>
        split at h
        next => obtain rfl := Option.some.inj h; cases hk
        next => dsimp only at h; split at h <;> (obtain rfl := Option.some.inj h; cases hk)
    next => cases h
  | request order sends =>
    simp only [seedStep] at h
    split at h
    next =>
      split at h
      next =>
        obtain rfl := Option.some.inj h
        unfold SeedDownloader.requestPieces at hk
        split at hk
        next => cases hk
        next => split at hk <;> cases hk
      next => cases h
    next => cases h
  | pick =>
    simp only [seedStep] at h
    split at h
    next =>
      unfold SeedDownloader.pickNext at h
      split at h
      next => cases h
      next => obtain rfl := Option.some.inj h; cases hk
      next => obtain rfl := Option.some.inj h; cases hk
      next =>
        split at h
        next => obtain rfl := Option.some.inj h; cases hk
        next => split at h <;> (obtain rfl := Option.some.inj h; cases hk)
    next => cases h
  | start sends =>
    simp only [seedStep] at h
    split at h
    next =>
      obtain rfl := Option.some.inj h
      unfold SeedDownloader.startPiece at hk
      split at hk <;> cases hk
    next => cases h
  | check | keepAlive | streamEnd | streamError | sendOk | sendErr | release =>
    simp only [seedStep] at h
    split at h <;> cases h <;> cases hk

/-- What steps that fail clean keep. -/
structure Solo.Steady (cfg : Config) (σ : Solo) : Prop extends Solo.Kept cfg σ where
  counted : σ.seed.Alive → Counted σ.seed
  begun : σ.seed.Alive → Begun σ.seed
  paired : σ.seed.Alive → Paired σ.seed
  sound : σ.seed.phase ≠ .panicked .blockAlreadyRequested

theorem steady_new (cfg : Config) : (Solo.new cfg).Steady cfg where
  toKept := kept_new cfg
  counted := fun _ => counted_new
  begun := fun _ => (booked_new cfg).begun
  paired := fun _ x hx => by simp [Solo.new, SeedDownloader.new] at hx
  sound := (nomatch ·)

theorem starting_eq {k : Nat} {dl : PieceDownload} (hs : s.phase = .start k dl) :
    s.starting = some (k, dl) := by
  unfold SeedDownloader.starting
  rw [hs]

/-- A piece that is being started is the one of the phase. -/
theorem starting_inv {k : Nat} {dl : PieceDownload} (h : s.starting = some (k, dl)) :
    s.phase = .start k dl := by
  unfold SeedDownloader.starting at h
  split at h
  next hs =>
    obtain ⟨rfl, rfl⟩ := Prod.mk.inj (Option.some.inj h)
    exact hs
  next => cases h

/-- A piece that is being completed is the one of the phase, and pending. -/
theorem completing_inv {k : Nat} {dl : PieceDownload} (h : s.completing = some (k, dl)) :
    s.phase = .complete k ∧ s.pendingPieces[k]? = some dl := by
  unfold SeedDownloader.completing at h
  split at h
  next hs =>
    obtain ⟨dl', hdl', heq⟩ := Option.map_eq_some_iff.mp h
    obtain ⟨rfl, rfl⟩ := Prod.mk.inj heq
    exact ⟨hs, hdl'⟩
  next => cases h

/-- A complete piece whose `set` returns is no longer pending, valid or not. -/
theorem soloStep_setPiece (h : σ.Inv cfg) {k : Nat} {dl : PieceDownload}
    (hs : σ.seed.phase = .complete k) (hdl : σ.seed.pendingPieces[k]? = some dl)
    (hset : ¬ (¬ σ.bitfield.Owns k ∧ σ.bitfield.Closes k)) :
    ∃ σ', soloStep cfg σ (.own .setPiece) = some σ' ∧ σ'.seed.Alive ∧
      σ'.seed.pendingPieces = σ.seed.pendingPieces.erase k ∧
      σ'.seed.pendingBlocks = σ.seed.pendingBlocks := by
  have hn := cfg.torrent.numPieces_lt
  have hlive : σ.seed.Alive := by intro e he; rw [hs] at he; cases he
  have hlt := ((h.seed hlive).piece k dl hdl).lt
  have hret := Bitfield.set_returned h.bitfield hn hlt
    fun hp => hset ((Bitfield.set_panics_iff_closes h.bitfield hn hlt).mp hp)
  obtain ⟨b', hb'⟩ : ∃ b', σ.bitfield.set k = (b', .returned ()) := ⟨_, Prod.ext rfl hret⟩
  by_cases hvalid : validatePiece cfg.sha1 dl.bytes dl.pieceHash = true
  · refine ⟨⟨b', { σ.seed with
      pendingPieces := σ.seed.pendingPieces.erase k
      phase := .sending k dl.pieceLength dl.bytes }⟩, ?_, by simp [SeedDownloader.Alive], rfl, rfl⟩
    simp only [soloStep, seedStep, hs, SeedDownloader.setPiece, hb', hdl, if_pos hvalid]
    rfl
  · refine ⟨⟨b', { σ.seed with
      pendingPieces := σ.seed.pendingPieces.erase k
      phase := .loopHead }⟩, ?_, by simp [SeedDownloader.Alive], rfl, rfl⟩
    simp only [soloStep, seedStep, hs, SeedDownloader.setPiece, hb', hdl, if_neg hvalid]
    rfl

/-- One step keeps it all, if it fails clean. -/
theorem steady_step {a : SoloAct} (h : σ.Steady cfg) (hok : FailsClean σ a)
    (hstep : soloStep cfg σ a = some σ') : σ'.Steady cfg := by
  have hn := cfg.torrent.numPieces_lt
  cases a with
  | other op =>
    obtain ⟨-, hs, -⟩ := soloStep_other hstep
    exact ⟨kept_step h.toKept hstep, by rw [hs]; exact h.counted, by rw [hs]; exact h.begun,
      by rw [hs]; exact h.paired, by rw [hs]; exact h.sound⟩
  | own a =>
    obtain ⟨he, -⟩ := soloStep_own hstep
    have hk := h.known he
    have hcounted := h.counted he.alive
    have hpaired := h.paired he.alive
    have hbegun := h.begun he.alive
    have hfresh := hpaired.fresh hk
    refine ⟨kept_step h.toKept hstep, fun hlive => counted_step (h.owed he.alive) hcounted he hlive
      ?choke ?block, fun hlive => begun_step hk hbegun he hlive hfresh,
      fun hlive => paired_step hpaired he hlive ?complete ?failed,
      fun hpanic => hbegun.not_requested hfresh (he.cause hpanic)⟩
    case choke =>
      intro heq hs
      subst heq
      exact hok hs
    case block =>
      intro index begin block heq _ hmem hnone
      subst heq
      obtain ⟨dl, hdl⟩ := hpaired _ hmem
      exact absurd (hnone.symm.trans hdl) (nomatch ·)
    case complete =>
      intro k heq hs hset
      subst heq
      have hph := hk.phase
      rw [hs] at hph
      obtain ⟨dl, hdl⟩ := hph
      refine (hok (k, dl) (completing_eq hs hdl)).resolve_right fun hc => ?_
      rw [(Bitfield.set_panics_iff_closes h.bitfield hn (hk.piece k dl hdl).lt).mpr hc] at hset
      cases hset
    case failed =>
      intro k dl sends r hs heq hreq
      subst heq
      refine blocks_of_failed (hcounted.full (Or.inr ⟨k, dl, hs⟩)).2.1 (fun m hm => ?_) hreq
      subst hm
      exact hok (k, dl) (starting_eq hs)

/-- A step against the condition leaves an inconsistent state. -/
theorem failsClean_of_consistent {a : SoloAct} (h : σ.Steady cfg)
    (hnext : ∀ σ', soloStep cfg σ a = some σ' → σ'.Consistent) : FailsClean σ a := by
  have hn := cfg.torrent.numPieces_lt
  unfold FailsClean
  split
  next =>
    intro hs
    have hlive : σ.seed.Alive := by intro e he; rw [hs] at he; cases he
    obtain ⟨σ', hstep, hs', hinf, hnone⟩ := soloStep_choke h.toKept hs
    have hcount := ((hnext σ' hstep).1 fun e he => by rw [hs'] at he; cases he).2
    rw [hinf, hnone, (h.counted hlive).count] at hcount
    exact Finset.card_eq_zero.mp hcount
  next =>
    intro hp hcompleting
    obtain ⟨k, dl⟩ := hp
    obtain ⟨hs, hdl⟩ := completing_inv hcompleting
    have hlive : σ.seed.Alive := by intro e he; rw [hs] at he; cases he
    by_contra hno
    have hlt := ((h.seed hlive).piece k dl hdl).lt
    obtain ⟨σ', hstep, hlive', hpieces, hblocks⟩ := soloStep_setPiece h.toInv hs hdl
      fun hc => hno (Or.inr hc)
    refine hno (Or.inl (Finset.eq_empty_of_forall_notMem fun x hx => ?_))
    obtain ⟨hmem, rfl⟩ := SeedDownloader.mem_outstanding.mp hx
    obtain ⟨dl', hdl'⟩ := ((hnext σ' hstep).1 hlive').1 x (hblocks ▸ hmem)
    rw [hpieces, SeedDownloader.erase_getElem?, if_pos rfl] at hdl'
    cases hdl'
  next m =>
    intro hp hstarting
    obtain ⟨k, dl⟩ := hp
    have hs := starting_inv hstarting
    have hlive : σ.seed.Alive := by intro e he; rw [hs] at he; cases he
    have hph := (h.seed hlive).phase
    rw [hs] at hph
    have hl := requestBlocks_sends cfg.profile k
      (r := ⟨dl, σ.seed.inflight, σ.seed.pendingBlocks, ⟨some m, []⟩⟩) rfl
      ((h.counted hlive).full (Or.inr ⟨k, dl, hs⟩)).2.1
    cases hreq : requestBlocks cfg.profile k
        ⟨dl, σ.seed.inflight, σ.seed.pendingBlocks, ⟨some m, []⟩⟩ with
    | ok r => rw [hreq] at hl; exact Or.inr hl
    | panicked e r =>
      rw [hreq] at hl
      obtain rfl := hl
      have hcause : Cause cfg σ.bitfield σ.seed (.start (some m)) .blockAlreadyRequested :=
        .start hs hreq
      exact absurd hcause ((h.begun hlive).not_requested ((h.paired hlive).fresh (h.seed hlive)))
    | sendFailed r =>
      rw [hreq] at hl
      refine Or.inl (by_contra fun hm => ?_)
      -- the first block was sent, and its piece is not pending
      have hstep : soloStep cfg σ (.own (.start (some m))) = some ⟨σ.bitfield,
          { σ.seed with
            pendingBlocks := r.blocks, inflight := r.inflight, phase := .loopHead }⟩ := by
        simp only [soloStep, seedStep, hs, SeedDownloader.startPiece, hreq, Option.map_some]
      obtain ⟨dl', hdl'⟩ := ((hnext _ hstep).1 (by simp [SeedDownloader.Alive])).1 _ (hl.2.2 hm)
      change σ.seed.pendingPieces[k]? = some dl' at hdl'
      exact hph.1 (mem_of_getElem?_ne_none.mpr (by rw [hdl']; simp))
  next => exact trivial

theorem Solo.Steady.consistent (h : σ.Steady cfg) : σ.Consistent :=
  ⟨fun hlive => ⟨h.paired hlive, (h.counted hlive).count⟩, h.sound⟩

/-- With every outstanding block at its piece no block is an orphan. -/
theorem Solo.Steady.noOrphan (h : σ.Steady cfg) (a : SoloAct) : NoOrphan cfg σ a := by
  cases a with
  | other op => exact trivial
  | own a =>
    intro out hout k hk
    obtain ⟨he, -⟩ := effect_of_step hout
    obtain ⟨x, hx, hnone⟩ := orphan_of_step hout hk
    obtain ⟨dl, hdl⟩ := h.paired he.alive x hx
    rw [hnone] at hdl
    cases hdl

/-- **A failed send leaves the downloader consistent, exactly when** it leaves
nothing of a new piece behind. In a run whose steps all do, every block has its
piece and the counter is exact in every state, and neither the assertion that a
block is requested once nor the error about a piece that was not requested comes
up. -/
theorem failed_send_consistent_iff (cfg : Config) (acts : List SoloAct) :
    AllStates (soloStep cfg) Solo.Consistent (Solo.new cfg) acts ∧
      AllSteps (soloStep cfg) (NoOrphan cfg) (Solo.new cfg) acts ↔
    AllSteps (soloStep cfg) FailsClean (Solo.new cfg) acts := by
  constructor
  · intro hp
    obtain ⟨hall, -⟩ := hp
    exact allSteps_of_allStates (fun _ _ _ h ok hs => steady_step h ok hs)
      (fun _ _ h _ hnext => failsClean_of_consistent h hnext) (steady_new cfg) hall
  · intro hok
    exact ⟨(allStates_of_invariant (fun _ _ _ h ok hs => steady_step h ok hs) (steady_new cfg)
        hok).mono fun _ h => h.consistent,
      allSteps_of_invariant (fun _ _ _ h ok hs => steady_step h ok hs)
        (fun _ a h _ => h.noOrphan a) (steady_new cfg) hok⟩

/-- The second send fails: the first block is outstanding and its piece is not
pending. -/
theorem second_send_fails :
    ¬ (AllStates (soloStep tenBlocks) Solo.Consistent (Solo.new tenBlocks)
        (unchokedRun.dropLast ++ [.own (.start (some 1))]) ∧
      AllSteps (soloStep tenBlocks) (NoOrphan tenBlocks) (Solo.new tenBlocks)
        (unchokedRun.dropLast ++ [.own (.start (some 1))])) := by
  have h : ¬ AllStates (soloStep tenBlocks) Solo.Consistent (Solo.new tenBlocks)
      (unchokedRun.dropLast ++ [.own (.start (some 1))]) := by decide +kernel
  exact fun hall => h hall.1

end FailedSend

end BitTorrent
