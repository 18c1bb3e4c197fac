import BitTorrent.Download.Bookkeeping

/-!
# A downloader does not stall

A downloader asks for more only while it handles an `Unchoke` or a `Piece`. So
between two messages an unchoked downloader must have something outstanding, or
there must be nothing left to download. Two things break this: a counter that
says the pipeline is full when nothing is outstanding, and the early return when
a piece fails its validation. `KeepsFlowing` excludes them; then the downloader
never stalls (`downloader_flows`).

`Flows` is the property between two messages, and `Flowing` carries it to the next
ones, through the steps in which a message is handled. When the picker returns
nothing, every piece is owned. When it returns a piece that is pending with us, a
block of it is outstanding.

The peer is not asked to send anything. A downloader that waits for a block which
never comes does not stall in this sense: it has done what it can.
-/

namespace BitTorrent

/-- The downloader waits for a block, or every piece is owned. -/
def Flows (cfg : Config) (σ : Solo) : Prop :=
  σ.seed.pendingBlocks ≠ ∅ ∨ σ.bitfield.remaining cfg.profile = some 0

instance (cfg : Config) (σ : Solo) : Decidable (Flows cfg σ) := inferInstanceAs (Decidable (_ ∨ _))

/-- Between two messages, an unchoked downloader flows. -/
def NotStalled (cfg : Config) (σ : Solo) : Prop :=
  σ.seed.AtRest → σ.seed.chokedUs = false → Flows cfg σ

instance (cfg : Config) (σ : Solo) : Decidable (NotStalled cfg σ) :=
  inferInstanceAs (Decidable (_ → _ → _))

/-- The piece that is complete is valid, or blocks are outstanding, or it is the
last one. -/
def LeavesFlowing (cfg : Config) (σ : Solo) : Option (Nat × PieceDownload) → Prop
  | some (k, dl) => validatePiece cfg.sha1 dl.bytes dl.pieceHash = true ∨
    σ.seed.pendingBlocks ≠ ∅ ∨ ∀ j, j < cfg.torrent.numPieces → j ≠ k → σ.bitfield.Owns j
  | none => True

instance (cfg : Config) (σ : Solo) : ∀ e, Decidable (LeavesFlowing cfg σ e)
  | some (_, _) => inferInstanceAs (Decidable (_ ∨ _ ∨ _))
  | none => isTrue trivial

/-- The step does not stop the flow: with no piece pending there is room for the
next one, and a piece that fails its validation does not end everything. -/
def KeepsFlowing (cfg : Config) (σ : Solo) : SoloAct → Prop
  | .own (.request _ _) =>
    σ.seed.phase = .request → σ.seed.chokedUs = false → σ.seed.pendingPieces = ∅ →
      σ.seed.inflight < maxInflightPerPeer ∨ σ.bitfield.remaining cfg.profile = some 0
  | .own .setPiece => LeavesFlowing cfg σ σ.seed.completing
  | _ => True

instance (m : PendingPieces) : Decidable (m = ∅) :=
  decidable_of_iff (m.isEmpty = true) Std.ExtTreeMap.isEmpty_iff

instance (cfg : Config) (σ : Solo) : ∀ a, Decidable (KeepsFlowing cfg σ a)
  | .own (.request ..) => inferInstanceAs (Decidable (_ → _ → _ → _ ∨ _))
  | .own .setPiece => inferInstanceAs (Decidable (LeavesFlowing ..))
  | .own .check | .own (.keepAlive _) | .own .streamEnd | .own .streamError | .own (.deliver _)
  | .own .sendOk | .own .sendErr | .own .release | .own .pick | .own (.start _)
  | .other _ => isTrue trivial

section Progress

variable {cfg : Config} {b : Bitfield} {s s' : SeedDownloader} {σ σ' : Solo} {a : SoloAct}

/-! ## A batch of requests -/

/-- A call with blocks to request leaves some outstanding. -/
theorem requestBlocks_outstanding (p : Profile) (k : Nat) {r : Requests}
    (h : r.dl.requested < r.dl.pieceLength) :
    (requestBlocks p k r).Sat (fun r' => r'.blocks ≠ ∅) (fun _ => True) (fun _ => True) := by
  refine (requestBlocks_rule (p := p) (k := k)
    (P := fun r => r.blocks ≠ ∅ ∨ r.dl.requested < r.dl.pieceLength) (Q := fun r => r.blocks ≠ ∅)
    (fun r inflight wire _ _ _ _ _ => Finset.insert_ne_empty _ _) (fun r hr _ => Or.inl hr)
    (fun r hr hle => hr.resolve_right (Nat.not_lt.mpr hle)) r (Or.inr h)).mono
    (fun _ hr => hr.1) (fun _ _ => trivial) (fun _ _ => trivial)

/-- So does the loop over the pending pieces, when one of them has blocks to
request or some are outstanding already. -/
theorem requestPending_outstanding (p : Profile) (order : List Nat) (s : SeedDownloader) (w : Wire)
    (h : s.pendingBlocks ≠ ∅ ∨ ∃ k ∈ order, s.Partial k) :
    (requestPending p order s w).Sat (fun sw => sw.1.pendingBlocks ≠ ∅) (fun _ => True)
      (fun _ => True) := by
  refine (requestPending_rule (p := p)
    (I := fun order s _ => s.pendingBlocks ≠ ∅ ∨ ∃ k ∈ order, s.Partial k)
    (F := fun _ _ => True) (E := fun _ => True) ?skip
    (fun _ _ _ _ _ _ _ _ => ⟨fun _ => trivial, fun _ => trivial⟩) ?piece order s w h).mono
    (fun _ hr => ?_) (fun _ _ => trivial) (fun _ _ => trivial)
  case skip =>
    intro k order s w h hfull
    rcases h with h | ⟨j, hj, dl, hdl, hlt⟩
    · exact Or.inl h
    · rcases List.mem_cons.mp hj with rfl | hj
      · exact absurd (hfull dl hdl) (Nat.ne_of_lt hlt)
      · exact Or.inr ⟨j, hj, dl, hdl, hlt⟩
  case piece =>
    intro k order s w dl h hdl hne
    by_cases hlt : dl.requested < dl.pieceLength
    · exact (requestBlocks_outstanding p k hlt).mono (fun _ hr => Or.inl hr) (fun _ _ => trivial)
        (fun _ _ => trivial)
    · rw [requestBlocks_done p k hlt]
      show _ ∨ ∃ j ∈ order, (s.apply k _).Partial j
      rw [SeedDownloader.apply_self hdl]
      rcases h with h | ⟨j, hj, dl', hdl', hlt'⟩
      · exact Or.inl h
      · rcases List.mem_cons.mp hj with rfl | hj
        · rw [hdl] at hdl'
          exact absurd (Option.some.inj hdl' ▸ hlt') hlt
        · exact Or.inr ⟨j, hj, dl', hdl', hlt'⟩
  · rcases hr with hr | ⟨k, hk, -⟩
    · exact hr
    · cases hk

/-- A pending piece that is not complete has a block outstanding or to request. -/
theorem Books.outstanding_or_partial (h : Books cfg s) {k : Nat} {dl : PieceDownload}
    (hdl : s.pendingPieces[k]? = some dl) : s.pendingBlocks ≠ ∅ ∨ s.Partial k := by
  have hpos := (h.exact k dl hdl).2
  by_cases hlt : dl.requested < dl.pieceLength
  · exact Or.inr ⟨dl, hdl, hlt⟩
  · left
    intro hnone
    have hfull : dl.pieceLength - dl.requested = 0 := by omega
    unfold SeedDownloader.left SeedDownloader.outstanding PieceDownload.unrequested at hpos
    rw [hnone, hfull, blocksIn_zero] at hpos
    exact absurd hpos (Nat.lt_irrefl 0)

/-! ## Nothing left to download -/

/-- `remaining` is zero when every piece is owned. -/
theorem remaining_eq_zero_iff (hb : Bitfield.Inv cfg.torrent.numPieces b) :
    b.remaining cfg.profile = some 0 ↔ ∀ i, i < cfg.torrent.numPieces → b.Owns i := by
  rw [hb.remaining_eq cfg.torrent.numPieces_lt, Option.some.injEq, Finset.card_eq_zero]
  constructor
  · intro hnone i hi
    by_contra hun
    have hmem := (Bitfield.mem_missing hb).mpr ⟨hi, hun⟩
    rw [hnone] at hmem
    cases hmem
  · intro hall
    refine Finset.eq_empty_of_forall_notMem fun i hi => ?_
    obtain ⟨hlt, hun⟩ := (Bitfield.mem_missing hb).mp hi
    exact hun (hall i hlt)

/-- Once everything is owned it stays so. -/
theorem remaining_zero_step (h : σ.Inv cfg) (hstep : soloStep cfg σ a = some σ')
    (hzero : σ.bitfield.remaining cfg.profile = some 0) :
    σ'.bitfield.remaining cfg.profile = some 0 :=
  (remaining_eq_zero_iff (soloInv_step h hstep).bitfield).mpr fun i hi =>
    owns_of_soloStep h hstep ((remaining_eq_zero_iff h.bitfield).mp hzero i hi)

/-! ## Steps and runs -/

/-- What is kept along a run: besides the rest property, a task that picks a
piece has something outstanding unless no piece is pending. -/
structure Flowing (cfg : Config) (σ : Solo) : Prop where
  rest : NotStalled cfg σ
  pick : σ.seed.phase = .pick → σ.seed.pendingBlocks ≠ ∅ ∨ σ.seed.pendingPieces = ∅

theorem pieces_eq_empty {m : PendingPieces}
    (h : ∀ (k : Nat) (dl : PieceDownload), m[k]? ≠ some dl) :
    m = ∅ := by
  ext k : 1
  cases hm : m[k]? with
  | none => simp
  | some dl => exact absurd hm (h k dl)

/-- Who waits for a block goes on waiting, and pieces stay owned. -/
theorem Flows.step (h : Flows cfg σ) (hinv : σ.Inv cfg) (hstep : soloStep cfg σ a = some σ')
    (hb : σ'.seed.pendingBlocks = σ.seed.pendingBlocks) : Flows cfg σ' := by
  rcases h with h | h
  · exact Or.inl (hb ▸ h)
  · exact Or.inr (remaining_zero_step hinv hstep h)

/-- A task that is not between two messages and does not pick has no obligation. -/
theorem flowing_of_phase (hrest : ¬ σ.seed.AtRest) (hpick : σ.seed.phase ≠ .pick) :
    Flowing cfg σ :=
  ⟨fun hr => absurd hr hrest, fun hp => absurd hp hpick⟩

theorem flowing_of_flows (h : Flows cfg σ) (hpick : σ.seed.phase ≠ .pick) : Flowing cfg σ :=
  ⟨fun _ _ => h, fun hp => absurd hp hpick⟩

/-- A step that only moves the task on keeps the flow. -/
theorem flowing_move {a : SeedAct} {b' : Bitfield} {phase : Phase} (hinv : σ.Inv cfg)
    (h : Flowing cfg σ) (hm : Moves cfg σ.bitfield σ.seed a phase) (hsends : a.SendsSucceed)
    (hstep : soloStep cfg σ (.own a) = some ⟨b', σ.seed.goto phase⟩) :
    Flowing cfg ⟨b', σ.seed.goto phase⟩ := by
  cases hm with
  | listen hs =>
    exact ⟨fun _ hc => (h.rest (Or.inl hs) hc).step hinv hstep rfl, (nomatch ·)⟩
  | ignore hs =>
    exact ⟨fun _ hc => (h.rest (Or.inr hs) hc).step hinv hstep rfl, (nomatch ·)⟩
  | sendErr => exact hsends.elim
  | choked hs hc =>
    exact ⟨fun _ hc' => absurd (show σ.seed.chokedUs = false from hc')
      (by rw [hc]; exact (nomatch ·)),
      (nomatch ·)⟩
  | pickNone hs hb =>
    refine flowing_of_flows (Or.inr (remaining_zero_step hinv hstep ?_)) (nomatch ·)
    rcases Bitfield.pickPiece_spec hinv.bitfield cfg.torrent.numPieces_lt with
      ⟨hall, -⟩ | ⟨m, -, -, -, heq⟩
    · exact (remaining_eq_zero_iff hinv.bitfield).mpr hall
    · rw [heq] at hb
      cases hb
  | pickPending hs hb hdl =>
    rcases h.pick hs with hne | hnone
    · exact flowing_of_flows (Or.inl hne) (nomatch ·)
    · rw [hnone] at hdl
      exact absurd hdl Std.ExtTreeMap.not_mem_empty
  | finish | streamEnd | sendOk | leave | release | pickNew =>
    exact flowing_of_phase (by simp [SeedDownloader.AtRest, SeedDownloader.goto]) (nomatch ·)

/-- One step of a live downloader keeps the flow, if it meets the condition. -/
theorem flowing_effect {a : SeedAct} {b' : Bitfield} (hinv : σ.Inv cfg) (hb : Booked cfg σ.seed)
    (hp : Paired σ.seed) (h : Flowing cfg σ) (he : Effect cfg σ.bitfield σ.seed a s')
    (hlive : s'.Alive) (hsends : a.SendsSucceed) (hok : KeepsFlowing cfg σ (.own a))
    (hstep : soloStep cfg σ (.own a) = some ⟨b', s'⟩) : Flowing cfg ⟨b', s'⟩ := by
  cases he with
  | move hm => exact flowing_move hinv h hm hsends hstep
  | choke hs hreset => exact ⟨fun _ hc => Bool.noConfusion hc, fun hp => Phase.noConfusion hp⟩
  | unchoke hs hc => exact flowing_of_phase (by simp [SeedDownloader.AtRest]) (by simp)
  -- every outstanding block belongs to a pending piece
  | orphan hs hmem hdl =>
    obtain ⟨dl, hdl'⟩ := hp _ hmem
    cases hdl.symm.trans hdl'
  | block hs hframed hmem hdl hrem hinf hsplice =>
    refine flowing_of_phase ?_ ?_
    · simp only [SeedDownloader.AtRest]
      split <;> simp
    · dsimp only
      split <;> simp
  | valid hs hset hdl hvalid =>
    exact flowing_of_phase (by simp [SeedDownloader.AtRest]) (by simp)
  | @invalid index dl hs hset hdl hvalid =>
    refine flowing_of_flows ?_ (by simp)
    simp only [KeepsFlowing, completing_eq hs hdl, LeavesFlowing, hvalid] at hok
    rcases hok.resolve_left Bool.false_ne_true with hne | hall
    · exact Or.inl hne
    · -- the piece that failed was the last one, and it is marked
      right
      have hn := cfg.torrent.numPieces_lt
      have hidx := (hb.piece index dl hdl).lt
      obtain ⟨-, hb'⟩ := soloStep_own hstep
      refine (remaining_eq_zero_iff (soloInv_step hinv hstep).bitfield).mpr fun j hj => ?_
      dsimp only at hb' ⊢
      rw [hb', SeedDownloader.bitOp, hs]
      refine (Bitfield.owns_call hinv.bitfield hn
        (show (BitOp.set index).InRange _ from hidx) j).mpr ?_
      by_cases hji : j = index
      · exact Or.inr (by rw [hji])
      · exact Or.inl (hall j hj hji)
  | @request order sends s₁ w hs hc horder hreq =>
    have hbooks := hb.books fun k => by rw [hs]; simp
    by_cases hnone : σ.seed.pendingPieces = ∅
    · -- no piece is pending: nothing is requested here
      have hkeys : order = [] := by
        rw [hnone] at horder
        exact List.Perm.eq_nil horder
      rw [hkeys] at hreq
      obtain ⟨rfl, -⟩ := Prod.mk.inj (Outcome.ok.inj hreq)
      rcases hok hs hc hnone with hlt | hzero
      · rw [if_pos hlt]
        exact ⟨fun hr => by simp [SeedDownloader.AtRest, SeedDownloader.goto] at hr,
          fun _ => Or.inr hnone⟩
      · have hzero' := remaining_zero_step hinv hstep hzero
        exact ⟨fun _ _ => Or.inr hzero', fun _ => Or.inr hnone⟩
    -- a pending piece has a block outstanding, or one to request
    · have hsome : ∃ (k : Nat) (dl : PieceDownload), σ.seed.pendingPieces[k]? = some dl := by
        by_contra hno
        exact hnone (pieces_eq_empty fun k dl hdl => hno ⟨k, dl, hdl⟩)
      obtain ⟨k, dl, hdl⟩ := hsome
      have hk : k ∈ order := horder.symm.subset (Std.ExtTreeMap.mem_keys.mpr
        (Std.ExtTreeMap.mem_iff_isSome_getElem?.mpr (by rw [hdl]; rfl)))
      have hout := requestPending_outstanding cfg.profile order σ.seed ⟨sends, []⟩
        ((hbooks.outstanding_or_partial hdl).imp id fun hpart => ⟨k, hk, hpart⟩)
      rw [hreq] at hout
      exact ⟨fun _ _ => Or.inl hout, fun _ => Or.inl hout⟩
  -- no send fails
  | @requestFailed order sends s₁ w hs hc horder hreq =>
    have hl := requestPending_not_failed cfg.profile order σ.seed (w := ⟨sends, []⟩) hsends
    rw [hreq] at hl
    exact hl.elim
  | @start index dl sends r hs hdl hreq =>
    have hph := hb.phase
    rw [hs] at hph
    have hpos := cfg.torrent.pieceLen_pos hph.2.1.lt
    have hout := requestBlocks_outstanding cfg.profile index
      (r := ⟨dl, σ.seed.inflight, σ.seed.pendingBlocks, ⟨sends, []⟩⟩)
      (by dsimp only; rw [hph.2.2.1, hph.2.1.length]; exact hpos)
    rw [hreq] at hout
    exact flowing_of_flows (Or.inl hout) (by simp [SeedDownloader.goto])
  | @startFailed index dl sends r hs hreq =>
    have hl := requestBlocks_not_failed cfg.profile index
      (r := ⟨dl, σ.seed.inflight, σ.seed.pendingBlocks, ⟨sends, []⟩⟩) hsends
    rw [hreq] at hl
    exact hl.elim
  | panic hcause hs' => exact absurd hs' (hlive _)

theorem flowing_new (cfg : Config) : Flowing cfg (Solo.new cfg) :=
  ⟨fun _ => (nomatch ·), (nomatch ·)⟩

/-- **No stall.** In a run with small pieces and sends that succeed, whose steps
keep the requests flowing, an unchoked downloader between two messages has a
block outstanding unless every piece is owned. -/
theorem downloader_flows (cfg : Config) (acts : List SoloAct) (hsmall : SmallPieces cfg)
    (hsends : ∀ a ∈ acts, a.SendsSucceed)
    (hok : AllSteps (soloStep cfg) (KeepsFlowing cfg) (Solo.new cfg) acts) :
    AllStates (soloStep cfg) (NotStalled cfg) (Solo.new cfg) acts := by
  refine (allStates_of_invariant
    (P := fun σ => (∃ tr, Booking cfg σ tr) ∧ (σ.seed.Alive → Flowing cfg σ))
    (fun σ a σ' h hok hs => ?_) ⟨⟨[], booking_new cfg⟩, fun _ => flowing_new cfg⟩
    ((allSteps_of_forall hsends).and hok)).mono fun σ h hrest hc => ?_
  · obtain ⟨⟨tr, hbook⟩, hflow⟩ := h
    refine ⟨⟨_, booking_step hsmall hbook hok.1 hs⟩, fun hlive => ?_⟩
    cases a with
    | own a =>
      have he := (soloStep_own hs).1
      exact flowing_effect hbook.toInv (hbook.booked he.alive) (hbook.paired he.alive)
        (hflow he.alive) he hlive hok.1 hok.2 hs
    | other op =>
      obtain ⟨-, hseed, -⟩ := soloStep_other hs
      have h := hflow (hseed ▸ hlive)
      refine ⟨fun hr hc => ?_, fun hp => by rw [hseed] at hp ⊢; exact h.pick hp⟩
      rw [hseed] at hr hc
      exact (h.rest hr hc).step hbook.toInv hs (by rw [hseed])
  · refine (h.2 fun e he => ?_).rest hrest hc
    rcases hrest with hs | hs <;> rw [hs] at he <;> cases he

/-- A piece that fails its validation while nothing else is outstanding stops
the downloader, with the other piece still missing. -/
theorem invalid_piece_stalls :
    ¬ AllStates (soloStep (twoPieces .release)) (NotStalled (twoPieces .release))
      (Solo.new (twoPieces .release))
      [.own .check, .own (.deliver .unchoke), .own (.request [] none), .own .pick,
        .own (.start none), .own .check, .own (.deliver (.piece 0 0 [0])), .own .setPiece] := by
  decide +kernel

theorem downloader_flows_two :
    AllStates (soloStep (twoPieces .release)) (NotStalled (twoPieces .release))
      (Solo.new (twoPieces .release))
      [.own .check, .own (.deliver .unchoke), .own (.request [] none), .own .pick,
        .own (.start none), .own .check, .own (.deliver (.piece 0 0 [1])), .own .setPiece,
        .own .sendOk, .own .release, .own (.request [] none), .own .pick, .own (.start none)] :=
  downloader_flows (twoPieces .release) _ (by decide +kernel) (by decide +kernel)
    (by decide +kernel)

end Progress

end BitTorrent
