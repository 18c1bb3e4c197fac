import BitTorrent.Download.Assembly

/-!
# The bookkeeping of a whole run

A run of one downloader with its history: which piece was started, when
everything was reset, which blocks were received. `blocks_booked` states what
holds of the pending pieces and blocks in every state, and that the buffer of a
complete piece consists of blocks received since the piece was last reset.

The history is no part of the program. It is kept by `traced`, one event for each
step that starts a piece, receives a block or resets, and a run with it is a run
without it. `WrittenSince` reads it backwards, up to the last event that began the
piece anew.

The theorem is an invariant of the pair of state and history (`Booking`). It is put
together from what the earlier files keep: `Booked` for the counters, `Paired` and
`Filled` for the blocks and the bytes.
-/

namespace BitTorrent

/-- What a run does to the pieces: a choke resets them all, one is started, a block
of one is received. -/
inductive SeedEvent
  | reset
  | started (k : Nat)
  | received (k begin : Nat) (block : List UInt8)
  deriving DecidableEq, Repr

/-- The event of a step, if it is one of these. -/
def seedEvent (σ : Solo) : SoloAct → Option SeedEvent
  | .own (.deliver .choke) => some .reset
  | .own (.deliver (.piece index begin block)) =>
    if .received index begin block ∈ σ.seed.pendingBlocks then
      some (.received index.toNat begin.toNat block)
    else none
  | .own (.start _) =>
    match σ.seed.phase with
    | .start k _ => some (.started k)
    | _ => none
  | _ => none

/-- The blocks of the piece `k` received since it was started or reset. -/
def blocksSince (k : Nat) : List SeedEvent → List (Nat × List UInt8)
  | [] => []
  | .reset :: _ => []
  | .started j :: tr => if j = k then [] else blocksSince k tr
  | .received j begin block :: tr =>
    if j = k then (begin, block) :: blocksSince k tr else blocksSince k tr

/-- A block received since then carried `byte` at the offset `o` of its piece. -/
def WrittenSince (tr : List SeedEvent) (k o : Nat) (byte : UInt8) : Prop :=
  ∃ e ∈ blocksSince k tr, ∃ i, e.2[i]? = some byte ∧ o = e.1 + i

/-- The books of a downloader, as the code means them. -/
structure Bookkept (s : SeedDownloader) (tr : List SeedEvent) : Prop where
  block : ∀ x ∈ s.pendingBlocks, ∃ dl, s.pendingPieces[x.pieceIndex]? = some dl ∧
    x.blockBegin % blockSize = 0 ∧ 0 < x.blockLen ∧ x.blockLen ≤ blockSize ∧
    x.blockBegin + x.blockLen ≤ dl.requested
  disjoint : ∀ x ∈ s.pendingBlocks, ∀ y ∈ s.pendingBlocks, x.pieceIndex = y.pieceIndex →
    x = y ∨ x.blockBegin + x.blockLen ≤ y.blockBegin ∨ y.blockBegin + y.blockLen ≤ x.blockBegin
  piece : ∀ k dl, s.pendingPieces[k]? = some dl →
    dl.requested ≤ dl.pieceLength ∧ dl.bytes.length = dl.pieceLength ∧
    dl.remainingBlocks = (s.outstanding k).card +
      (dl.pieceLength - dl.requested + blockSize - 1) / blockSize
  remaining : ∀ k dl, s.pendingPieces[k]? = some dl → s.phase ≠ .complete k →
    0 < dl.remainingBlocks
  complete : ∀ k, s.phase = .complete k → ∃ dl, s.pendingPieces[k]? = some dl ∧
    dl.remainingBlocks = 0 ∧
    ∀ o, o < dl.pieceLength → ∃ byte, dl.bytes[o]? = some byte ∧ WrittenSince tr k o byte

section Bookkeeping

variable {cfg : Config} {σ σ' : Solo} {tr tr' : List SeedEvent} {a : SoloAct}

/-- What is kept along a run. -/
structure Booking (cfg : Config) (σ : Solo) (tr : List SeedEvent) : Prop
    extends Solo.Inv cfg σ where
  booked : σ.seed.Alive → Booked cfg σ.seed
  paired : σ.seed.Alive → Paired σ.seed
  filled : σ.seed.Alive → Filled (WrittenSince tr) σ.seed
  sound : ∀ e, σ.seed.phase = .panicked e → ¬ e.Bookkeeping

theorem booking_new (cfg : Config) : Booking cfg (Solo.new cfg) [] where
  toInv := soloInv_new cfg
  booked := fun _ => booked_new cfg
  paired := fun _ x hx => by simp [Solo.new, SeedDownloader.new] at hx
  filled := fun _ k dl hdl => by simp [Solo.new, SeedDownloader.new] at hdl
  sound := fun e he => by simp [Solo.new, SeedDownloader.new] at he

/-- Receiving a block adds it to what was written. -/
theorem writtenSince_received (tr : List SeedEvent) (k begin : Nat) {block : List UInt8} {i : Nat}
    {byte : UInt8} (hi : block[i]? = some byte) :
    WrittenSince (.received k begin block :: tr) k (begin + i) byte := by
  refine ⟨(begin, block), ?_, i, hi, rfl⟩
  unfold blocksSince
  rw [if_pos rfl]
  exact List.mem_cons_self ..

/-- An event that neither resets nor starts the piece forgets nothing. -/
theorem WrittenSince.event {k o : Nat} {byte : UInt8} (h : WrittenSince tr k o byte)
    {ev : Option SeedEvent} (hreset : ev ≠ some .reset) (hstart : ev ≠ some (.started k)) :
    WrittenSince (ev.toList ++ tr) k o byte := by
  obtain ⟨e, he, i, hi, ho⟩ := h
  refine ⟨e, ?_, i, hi, ho⟩
  cases ev with
  | none => exact he
  | some ev =>
    cases ev with
    | reset => exact absurd rfl hreset
    | started j =>
      have hj : j ≠ k := fun hjk => hstart (by rw [hjk])
      show e ∈ blocksSince k (.started j :: tr)
      unfold blocksSince
      rw [if_neg hj]
      exact he
    | received j begin block =>
      show e ∈ blocksSince k (.received j begin block :: tr)
      unfold blocksSince
      split
      · exact List.mem_cons_of_mem _ he
      · exact he

/-- Only a choke resets. -/
theorem seedEvent_ne_reset {a : SeedAct} (ha : a ≠ .deliver .choke) :
    seedEvent σ (.own a) ≠ some .reset := by
  unfold seedEvent
  split
  next heq => exact absurd (SoloAct.own.inj heq) ha
  next => split <;> exact (nomatch ·)
  next => split <;> exact (nomatch ·)
  next => exact (nomatch ·)

/-- A piece is started in its own phase only. -/
theorem seedEvent_ne_started {a : SeedAct} {k : Nat} (hk : ∀ dl, σ.seed.phase ≠ .start k dl) :
    seedEvent σ (.own a) ≠ some (.started k) := by
  unfold seedEvent
  split
  next => exact (nomatch ·)
  next => split <;> exact (nomatch ·)
  next =>
    split
    next j dl hs =>
      intro heq
      rw [SeedEvent.started.inj (Option.some.inj heq)] at hs
      exact hk dl hs
    next => exact (nomatch ·)
  next => exact (nomatch ·)

/-- One step keeps what is kept along a run. The trace grows by the event of the
step. -/
theorem booking_step (hsmall : SmallPieces cfg) (h : Booking cfg σ tr)
    (hsends : a.SendsSucceed) (hstep : soloStep cfg σ a = some σ') :
    Booking cfg σ' ((seedEvent σ a).toList ++ tr) := by
  cases a with
  | other op =>
    obtain ⟨-, hs, -⟩ := soloStep_other hstep
    exact ⟨soloInv_step h.toInv hstep, by rw [hs]; exact h.booked, by rw [hs]; exact h.paired,
      by rw [hs]; exact h.filled, by rw [hs]; exact h.sound⟩
  | own a =>
    obtain ⟨he, -⟩ := soloStep_own hstep
    have hb := h.booked he.alive
    have hp := h.paired he.alive
    have hfresh := hp.fresh hb.toKnown
    refine ⟨soloInv_step h.toInv hstep,
      fun hlive => booked_step h.bitfield hb he hlive hsmall hfresh,
      fun hlive => paired_step hp he hlive (fun k _ hs _ => hb.outstanding_complete hs) ?_,
      fun hlive => filled_step hb.toKnown (h.filled he.alive) he hlive ?_ ?_,
      fun e hpanic => hb.not_bookkeeping hsmall hfresh (he.cause hpanic)⟩
    · intro k dl sends r hs heq hreq
      subst heq
      have hl := requestBlocks_not_failed cfg.profile k
        (r := ⟨dl, σ.seed.inflight, σ.seed.pendingBlocks, ⟨sends, []⟩⟩) hsends
      rw [hreq] at hl
      exact hl.elim
    · intro index begin block heq _ hmem i byte hi
      subst heq
      show WrittenSince ((if _ then _ else _ : Option SeedEvent).toList ++ tr) _ _ _
      rw [if_pos hmem]
      exact writtenSince_received tr _ _ hi
    · intro k o byte hchoke hstart hw
      exact hw.event (seedEvent_ne_reset hchoke) (seedEvent_ne_started hstart)

/-- What is kept implies the books as the code means them. -/
theorem Booking.bookkept (h : Booking cfg σ tr) (hlive : σ.seed.Alive) : Bookkept σ.seed tr := by
  have hb := h.booked hlive
  refine ⟨fun x hx => ?_, fun x hx y hy hxy => (hb.block x hx).eq_or_disjoint (hb.block y hy) hxy,
    fun k dl hdl => ⟨(hb.piece k dl hdl).requested_le, (hb.piece k dl hdl).bytes, ?_⟩,
    fun k dl hdl hs => ?_, fun k hs => hb.complete_filled (h.filled hlive) hs⟩
  · obtain ⟨dl, hdl⟩ := h.paired hlive x hx
    have hx' := hb.block x hx
    exact ⟨dl, hdl, hx'.aligned, hx'.len_pos, hx'.len_le,
      hx'.end_le_requested (hb.piece _ dl hdl) (hb.begun x hx dl hdl)⟩
  · by_cases hs : σ.seed.phase = .complete k
    · obtain ⟨hrem, hleft⟩ := (hb.counts k dl hdl).1 hs
      rw [hrem]
      exact hleft.symm
    · exact ((hb.counts k dl hdl).2 hs).1
  · have hexact := (hb.counts k dl hdl).2 hs
    rw [hexact.1]
    exact hexact.2

/-- **Block bookkeeping.** In every state of every run in which no send fails,
the blocks and pieces are booked as they should be, and the bookkeeping has not
failed. -/
theorem blocks_booked (cfg : Config) (acts : List SoloAct) (hsmall : SmallPieces cfg)
    (hsends : ∀ a ∈ acts, a.SendsSucceed) :
    AllStates (traced (soloStep cfg) seedEvent)
      (fun p => (p.1.seed.Alive → Bookkept p.1.seed p.2) ∧
        ∀ e, p.1.seed.phase = .panicked e → ¬ e.Bookkeeping) (Solo.new cfg, []) acts := by
  have hok : AllSteps (traced (soloStep cfg) seedEvent) (fun _ a => a.SendsSucceed)
      (Solo.new cfg, []) acts := allSteps_of_forall hsends
  refine (allStates_of_invariant (P := fun p => Booking cfg p.1 p.2) (fun p a p' h ok hs => ?_)
    (booking_new cfg) hok).mono fun p h => ⟨h.bookkept, h.sound⟩
  obtain ⟨hstep, htr⟩ := traced_eq_some hs
  rw [htr]
  exact booking_step hsmall h ok hstep

theorem blocks_booked_two :
    AllStates (traced (soloStep (twoPieces .dev)) seedEvent)
      (fun p => (p.1.seed.Alive → Bookkept p.1.seed p.2) ∧
        ∀ e, p.1.seed.phase = .panicked e → ¬ e.Bookkeeping) (Solo.new (twoPieces .dev), [])
      [.own .check, .own (.deliver .unchoke), .own (.request [] none), .own .pick,
        .own (.start none), .own .check, .other .pick, .own (.deliver (.piece 0 0 [1]))] :=
  blocks_booked (twoPieces .dev) _ (by decide +kernel) (by decide +kernel)

end Bookkeeping

end BitTorrent
