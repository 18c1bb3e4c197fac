import BitTorrent.Download.Pipeline

/-!
# The counter and the set of outstanding requests

`inflight` and `pending_blocks` are two records of the same thing. They part at
two places only: a choke empties the set and leaves the counter, and a block
whose piece is no longer pending leaves the set without being counted. In a run
without these steps they agree, and a run in which they agree has no such step
(`inflight_exact_iff`).

That the counter does not wrap on the way rests on the shape of the requests:
at most one pending piece has blocks left to request, and only while the
pipeline is full (`Counted`).

The loop over the pending pieces has an invariant of its own, about the pieces that
it has yet to visit (`Visiting`). When the pipeline is full, nothing is left to
request in these, and before it is full, nothing is left in the others. It holds of
any order, so that of the hash map does not matter.
-/

namespace BitTorrent

/-- The step keeps the counter and the set together: nothing outstanding is
dropped by a choke, and a block that is taken out of the set has a piece. -/
def CountStays (σ : Solo) : SoloAct → Prop
  | .own (.deliver .choke) => σ.seed.phase = .select → σ.seed.pendingBlocks = ∅
  | .own (.deliver (.piece index begin block)) =>
    σ.seed.phase = .select → (Message.piece index begin block).Framed →
      .received index begin block ∈ σ.seed.pendingBlocks → index.toNat ∈ σ.seed.pendingPieces
  | _ => True

/-- The counter is exact, the pipeline bounded, and at most one piece has blocks
left to request. -/
structure Level (s : SeedDownloader) : Prop where
  count : s.inflight = s.pendingBlocks.card
  le : s.inflight ≤ maxInflightPerPeer
  one : ∀ j k, s.Partial j → s.Partial k → j = k

/-- `Level`, with what the phase knows: no block is outstanding while we are choked,
there is room in the pipeline when the task comes to request, and nothing is left to
request in the pending pieces when it picks a new one. -/
structure Counted (s : SeedDownloader) : Prop extends Level s where
  choked : s.chokedUs = true → s.pendingBlocks = ∅
  room : (s.phase = .request ∨ s.phase = .sent ∨ (∃ k, s.phase = .complete k) ∨
    ∃ k len bytes, s.phase = .sending k len bytes) → s.inflight < maxInflightPerPeer
  full : (s.phase = .pick ∨ ∃ k dl, s.phase = .start k dl) →
    s.chokedUs = false ∧ s.inflight < maxInflightPerPeer ∧ ∀ k, ¬ s.Partial k

section Inflight

variable {cfg : Config} {b : Bitfield} {s s' : SeedDownloader} {a : SeedAct}

/-! ## The two loops -/

/-- A batch counts its requests and stops at the limit or at the end of the
piece. -/
theorem requestBlocks_counted (p : Profile) (k : Nat) {r : Requests}
    (hcount : r.inflight = r.blocks.card) (hlt : r.inflight < maxInflightPerPeer) :
    (requestBlocks p k r).Sat
      (fun r' => (r'.inflight = r'.blocks.card ∧ r'.inflight ≤ maxInflightPerPeer) ∧
        (r'.dl.pieceLength ≤ r'.dl.requested ∨ r'.inflight = maxInflightPerPeer))
      (fun r' => r'.inflight = r'.blocks.card ∧ r'.inflight ≤ maxInflightPerPeer)
      (fun _ => True) := by
  have hmax : maxInflightPerPeer = 5 := rfl
  refine (requestBlocks_rule (p := p) (k := k)
    (P := fun r => r.inflight = r.blocks.card ∧ r.inflight < maxInflightPerPeer)
    (Q := fun r => r.inflight = r.blocks.card ∧ r.inflight ≤ maxInflightPerPeer)
    ?push (fun r hr hne => ⟨hr.1, Nat.lt_of_le_of_ne hr.2 hne⟩)
    (fun r hr _ => ⟨hr.1, Nat.le_of_lt hr.2⟩) r ⟨hcount, hlt⟩).mono
    (fun _ hr => hr) (fun _ hr => ⟨hr.1.1, Nat.le_of_lt hr.1.2⟩) (fun _ _ => trivial)
  case push =>
    intro r inflight wire h _ hnew hadd _
    obtain ⟨hcount, hlt⟩ := h
    rw [p.add_of_lt (by omega)] at hadd
    obtain rfl := Option.some.inj hadd
    refine ⟨?_, hlt⟩
    show r.inflight + 1 = (insert _ r.blocks).card
    rw [Finset.card_insert_of_notMem hnew, hcount]

/-- After the requests of the piece `k` no other piece has blocks to request,
when none had before. -/
theorem partial_apply {k j : Nat} {r : Requests} (h : (s.apply k r).Partial j) :
    j = k ∧ r.dl.requested < r.dl.pieceLength ∨ j ≠ k ∧ s.Partial j := by
  obtain ⟨dl, hdl, hlt⟩ := h
  rw [show (s.apply k r).pendingPieces = s.pendingPieces.insert k r.dl from rfl,
    SeedDownloader.insert_getElem?] at hdl
  split at hdl
  next heq =>
    rw [← Option.some.inj hdl] at hlt
    exact Or.inl ⟨heq.symm, hlt⟩
  next hne => exact Or.inr ⟨Ne.symm hne, dl, hdl, hlt⟩

/-- A piece that has blocks to request after another is gone had them before. -/
theorem partial_erase {k j : Nat} {phase : Phase}
    (h : SeedDownloader.Partial { s with pendingPieces := s.pendingPieces.erase k, phase } j) :
    s.Partial j := by
  obtain ⟨dl, hdl, hlt⟩ := h
  dsimp only at hdl
  rw [SeedDownloader.erase_getElem?] at hdl
  split at hdl
  next => cases hdl
  next => exact ⟨dl, hdl, hlt⟩

/-- What holds when the pieces of `order` are still to be visited: a full
pipeline leaves nothing to request in them, and before it is full there is
nothing left to request in the others. -/
structure Visiting (order : List Nat) (s : SeedDownloader) : Prop extends Level s where
  nodup : order.Nodup
  rest : s.inflight = maxInflightPerPeer → ∀ k ∈ order, ¬ s.Partial k
  visited : s.inflight < maxInflightPerPeer → ∀ k, k ∉ order → ¬ s.Partial k

/-- A piece with nothing to request is passed over. -/
theorem Visiting.skip {k : Nat} {order : List Nat} (h : Visiting (k :: order) s)
    (hk : ¬ s.Partial k) : Visiting order s where
  toLevel := h.toLevel
  nodup := (List.nodup_cons.mp h.nodup).2
  rest := fun hfull j hj => h.rest hfull j (List.mem_cons_of_mem _ hj)
  visited := fun hlt j hj hp => by
    by_cases hjk : j = k
    · exact hk (hjk ▸ hp)
    · exact h.visited hlt j (fun hm => (List.mem_cons.mp hm).elim hjk hj) hp

/-- A piece is visited: the pipeline is full, or the piece has nothing left. -/
theorem Visiting.piece (p : Profile) {k : Nat} {order : List Nat} (h : Visiting (k :: order) s)
    {dl : PieceDownload} (hdl : s.pendingPieces[k]? = some dl) (w : Wire) :
    (requestBlocks p k ⟨dl, s.inflight, s.pendingBlocks, w⟩).Sat
      (fun r => Visiting order (s.apply k r)) (fun r => Level (s.apply k r)) (fun _ => True) := by
  by_cases hlt : dl.requested < dl.pieceLength
  · have hk : s.Partial k := ⟨dl, hdl, hlt⟩
    have hne : s.inflight ≠ maxInflightPerPeer :=
      fun hfull => h.rest hfull k (List.mem_cons_self ..) hk
    -- `k` is the only piece with blocks to request, before and after
    have honly : ∀ (r : Requests) (j : Nat), (s.apply k r).Partial j →
        j = k ∧ r.dl.requested < r.dl.pieceLength := by
      intro r j hj
      rcases partial_apply hj with hj | ⟨hjk, hj⟩
      · exact hj
      · exact absurd (h.one j k hj hk) hjk
    have hlevel : ∀ r : Requests, r.inflight = r.blocks.card ∧ r.inflight ≤ maxInflightPerPeer →
        Level (s.apply k r) := fun r hr =>
      ⟨hr.1, hr.2, fun i j hi hj => (honly r i hi).1.trans (honly r j hj).1.symm⟩
    refine (requestBlocks_counted p k h.count (Nat.lt_of_le_of_ne h.le hne)).mono
      (fun r hr => ⟨hlevel r hr.1, (List.nodup_cons.mp h.nodup).2, fun _ j hj hp => ?_,
        fun hlt j _ hp => ?_⟩) (fun r hr => hlevel r hr) (fun _ _ => trivial)
    · exact (List.nodup_cons.mp h.nodup).1 ((honly r j hp).1 ▸ hj)
    · rcases hr.2 with hle | hfull
      · exact absurd (honly r j hp).2 (Nat.not_lt.mpr hle)
      · exact absurd hfull (Nat.ne_of_lt hlt)
  · rw [requestBlocks_done p k hlt]
    show Visiting order (s.apply k _)
    rw [SeedDownloader.apply_self hdl]
    refine h.skip fun hp => ?_
    obtain ⟨dl', hdl', hlt'⟩ := hp
    rw [hdl] at hdl'
    exact hlt (Option.some.inj hdl' ▸ hlt')

theorem Visiting.requestPending (p : Profile) {order : List Nat} (h : Visiting order s) (w : Wire) :
    (requestPending p order s w).Sat (fun sw => Visiting [] sw.1) (fun sw => Level sw.1)
      (fun _ => True) :=
  requestPending_rule (I := fun order s _ => Visiting order s) (F := fun s _ => Level s)
    (fun _ _ _ _ h hfull => h.skip fun ⟨dl, hdl, hlt⟩ => Nat.ne_of_lt hlt (hfull dl hdl))
    (fun _ _ _ _ _ _ _ _ => ⟨fun _ => trivial, fun _ => trivial⟩)
    (fun _ _ _ w _ h hdl _ => h.piece p hdl w) order s w h

/-- The loop begins with room, and with one piece to fill it at most. -/
theorem Counted.visiting (h : Counted s) (hs : s.phase = .request) {order : List Nat}
    (horder : order.Perm s.pendingPieces.keys) : Visiting order s where
  toLevel := h.toLevel
  nodup := horder.symm.nodup Std.ExtTreeMap.nodup_keys
  rest := fun hfull => absurd hfull (Nat.ne_of_lt (h.room (Or.inl hs)))
  visited := fun _ k hk ⟨dl, hdl, _⟩ => hk (horder.symm.subset
    (Std.ExtTreeMap.mem_keys.mpr (Std.ExtTreeMap.mem_iff_isSome_getElem?.mpr (by rw [hdl]; rfl))))

/-! ## Steps and runs -/

/-- A task with nothing outstanding has blocks to request in each pending piece. -/
theorem partial_of_no_blocks (hw : CountsAll Owed s)
    (hnone : s.pendingBlocks = ∅) {k : Nat} {dl : PieceDownload}
    (hdl : s.pendingPieces[k]? = some dl) : s.Partial k := by
  refine ⟨dl, hdl, ?_⟩
  by_contra hge
  have hpos := (hw k dl hdl).pos
  have hfull : dl.pieceLength - dl.requested = 0 := by omega
  unfold SeedDownloader.left SeedDownloader.outstanding PieceDownload.unrequested at hpos
  rw [hnone, hfull, blocksIn_zero] at hpos
  exact absurd hpos (Nat.lt_irrefl 0)

/-- A step that only moves the task on keeps the counter. -/
theorem Counted.move (h : Counted s) {phase : Phase} (hm : Moves cfg b s a phase) :
    Counted (s.goto phase) := by
  have hroom : s.phase = .request ∨ s.phase = .sent ∨ (∃ k, s.phase = .complete k) ∨
      (∃ k len bytes, s.phase = .sending k len bytes) → s.inflight < maxInflightPerPeer := h.room
  refine ⟨⟨h.count, h.le, h.one⟩, h.choked, fun hph => ?_, fun hph => ?_⟩
  · cases hm with
    | sendOk hs => exact hroom (Or.inr (Or.inr (Or.inr ⟨_, _, _, hs⟩)))
    | release hs => exact hroom (Or.inr (Or.inl hs))
    | finish | listen | ignore | streamEnd | sendErr | leave | choked | pickNone | pickPending
    | pickNew => simp [SeedDownloader.goto] at hph
  · cases hm with
    | pickNew hs => exact h.full (Or.inl hs)
    | sendOk | release | finish | listen | ignore | streamEnd | sendErr | leave | choked | pickNone
    | pickPending => simp [SeedDownloader.goto] at hph

/-- A choke with nothing outstanding. -/
theorem Counted.choke (h : Counted s) (hw : CountsAll Owed s)
    (hnone : s.pendingBlocks = ∅) {pieces : PendingPieces}
    (hreset : SeedDownloader.resetPieces cfg.profile s.pendingPieces = some pieces) :
    Counted { s with
      chokedUs := true, pendingPieces := pieces, pendingBlocks := ∅, phase := .loopHead } := by
  have hold : ∀ j, SeedDownloader.Partial { s with
      chokedUs := true, pendingPieces := pieces, pendingBlocks := ∅, phase := .loopHead } j →
      s.Partial j := by
    intro j hp
    obtain ⟨dl', hdl', -⟩ := hp
    obtain ⟨dl, num, hdl, -⟩ := resetPieces_eq_some hreset hdl'
    exact partial_of_no_blocks hw hnone hdl
  refine ⟨⟨?_, h.le, fun i j hi hj => h.one i j (hold i hi) (hold j hj)⟩, fun _ => rfl, by simp,
    by simp⟩
  have hcount := h.count
  rw [hnone] at hcount
  exact hcount

/-- A block of a pending piece. -/
theorem Counted.block (h : Counted s) {x : BlockDownload} {k : Nat} {dl dl₁ : PieceDownload}
    (hx : x ∈ s.pendingBlocks) (hdl : s.pendingPieces[k]? = some dl)
    (hinf : s'.inflight + 1 = s.inflight) (hchoked : s'.chokedUs = s.chokedUs)
    (hp : s'.pendingPieces = s.pendingPieces.insert k dl₁)
    (hb : s'.pendingBlocks = s.pendingBlocks.erase x) (hlen : dl₁.pieceLength = dl.pieceLength)
    (hreq : dl₁.requested = dl.requested)
    (hphase : s'.phase = .complete k ∨ s'.phase = .request) : Counted s' := by
  have hold : ∀ j, s'.Partial j → s.Partial j := by
    intro j hq
    obtain ⟨dl', hdl', hlt⟩ := hq
    rw [hp, SeedDownloader.insert_getElem?] at hdl'
    split at hdl'
    next heq =>
      rw [← Option.some.inj hdl', hlen, hreq] at hlt
      exact ⟨dl, heq ▸ hdl, hlt⟩
    next => exact ⟨dl', hdl', hlt⟩
  have hcount := h.count
  have hle := h.le
  have hcard := Finset.card_erase_add_one hx
  refine ⟨⟨?_, by omega, fun i j hi hj => h.one i j (hold i hi) (hold j hj)⟩, fun hc => ?_,
    fun _ => by omega, fun hph => ?_⟩
  · rw [hb]
    omega
  · rw [hb, h.choked (hchoked ▸ hc)]
    rfl
  · rcases hphase with hs | hs <;> rw [hs] at hph <;> simp at hph

/-- One step keeps the counter exact, if it keeps the counter and the set
together. -/
theorem counted_step (hw : Counts Owed (fun _ _ => True) s) (h : Counted s)
    (he : Effect cfg b s a s') (hlive : s'.Alive)
    (hchoke : a = .deliver .choke → s.phase = .select → s.pendingBlocks = ∅)
    (hblock : ∀ index begin block, a = .deliver (.piece index begin block) → s.phase = .select →
      .received index begin block ∈ s.pendingBlocks → s.pendingPieces[index.toNat]? ≠ none) :
    Counted s' := by
  cases he with
  | move hm => exact h.move hm
  | choke hs hreset =>
    exact h.choke (hw.all fun k => by rw [hs]; exact (nomatch ·)) (hchoke rfl hs) hreset
  -- choked, the counter is zero
  | unchoke hs hc =>
    refine ⟨⟨h.count, h.le, h.one⟩, (nomatch ·), fun _ => ?_, by simp⟩
    have hcount := h.count
    rw [h.choked hc] at hcount
    show s.inflight < maxInflightPerPeer
    rw [hcount]
    exact Nat.zero_lt_succ 4
  | orphan hs hmem hdl => exact absurd hdl (hblock _ _ _ rfl hs hmem)
  | @block index begin block dl r inflight bytes hs hframed hmem hdl hrem hinf hsplice =>
    have hcount := h.count
    have hpos := Finset.card_pos.mpr ⟨_, hmem⟩
    rw [cfg.profile.sub_of_le (by omega)] at hinf
    have hinf := Option.some.inj hinf
    -- one block less is outstanding, and the counter goes down by one
    refine h.block hmem hdl (by dsimp only; omega) rfl rfl rfl rfl rfl ?_
    dsimp only
    split
    · exact Or.inl rfl
    · exact Or.inr rfl
  | @valid index dl hs hset hdl hvalid =>
    have hroom := h.room (Or.inr (Or.inr (Or.inl ⟨index, hs⟩)))
    refine ⟨⟨h.count, h.le, fun i j hi hj => h.one i j (partial_erase hi) (partial_erase hj)⟩,
      h.choked, fun _ => hroom, by simp⟩
  | @invalid index dl hs hset hdl hvalid =>
    exact ⟨⟨h.count, h.le, fun i j hi hj => h.one i j (partial_erase hi) (partial_erase hj)⟩,
      h.choked, by simp, by simp⟩
  | @request order sends s₁ w hs hc horder hreq =>
    have hv := (h.visiting hs horder).requestPending cfg.profile ⟨sends, []⟩
    have hframe := SeedDownloader.requestPending_frame cfg.profile order s ⟨sends, []⟩
    rw [hreq] at hv hframe
    refine ⟨⟨hv.count, hv.le, hv.one⟩, fun hch => ?_, fun hph => ?_, fun hph => ?_⟩
    · exact absurd (hframe.2.symm.trans hch) (by rw [hc]; exact (nomatch ·))
    · dsimp only [SeedDownloader.goto] at hph
      split at hph <;> simp at hph
    · have hlt : s₁.inflight < maxInflightPerPeer := by
        by_contra hge
        dsimp only [SeedDownloader.goto] at hph
        rw [if_neg hge] at hph
        simp at hph
      exact ⟨hframe.2.trans hc, hlt, fun k => hv.visited hlt k List.not_mem_nil⟩
  | @requestFailed order sends s₁ w hs hc horder hreq =>
    have hv := (h.visiting hs horder).requestPending cfg.profile ⟨sends, []⟩
    have hframe := SeedDownloader.requestPending_frame cfg.profile order s ⟨sends, []⟩
    rw [hreq] at hv hframe
    refine ⟨⟨hv.count, hv.le, hv.one⟩, fun hch => ?_, by simp [SeedDownloader.goto],
      by simp [SeedDownloader.goto]⟩
    exact absurd (hframe.2.symm.trans hch) (by rw [hc]; exact (nomatch ·))
  | @start index dl sends r hs hdl hreq =>
    obtain ⟨hc, hlt, hnone⟩ := h.full (Or.inr ⟨index, dl, hs⟩)
    have hr := requestBlocks_counted cfg.profile index
      (r := ⟨dl, s.inflight, s.pendingBlocks, ⟨sends, []⟩⟩) h.count hlt
    rw [hreq] at hr
    -- no other piece was left unfinished, or we would not have picked
    have honly : ∀ j, (s.apply index r).Partial j → j = index := by
      intro j hj
      rcases partial_apply hj with hj | ⟨-, hj⟩
      · exact hj.1
      · exact absurd hj (hnone j)
    refine ⟨⟨hr.1.1, hr.1.2, fun i j hi hj => (honly i hi).trans (honly j hj).symm⟩,
      fun hch => ?_, by simp [SeedDownloader.goto], by simp [SeedDownloader.goto]⟩
    exact absurd (show s.chokedUs = true from hch) (by rw [hc]; exact (nomatch ·))
  | @startFailed index dl sends r hs hreq =>
    obtain ⟨hc, hlt, hnone⟩ := h.full (Or.inr ⟨index, dl, hs⟩)
    have hr := requestBlocks_counted cfg.profile index
      (r := ⟨dl, s.inflight, s.pendingBlocks, ⟨sends, []⟩⟩) h.count hlt
    rw [hreq] at hr
    refine ⟨⟨hr.1, hr.2, h.one⟩, fun hch => ?_, by simp, by simp⟩
    exact absurd (show s.chokedUs = true from hch) (by rw [hc]; exact (nomatch ·))
  | panic hcause hs' => exact absurd hs' (hlive _)

/-- What holds in every run. -/
structure Solo.Kept (cfg : Config) (σ : Solo) : Prop extends Solo.Inv cfg σ where
  owed : σ.seed.Alive → Counts Owed (fun _ _ => True) σ.seed

theorem kept_new (cfg : Config) : (Solo.new cfg).Kept cfg :=
  ⟨soloInv_new cfg, fun _ k dl hdl => by simp [Solo.new, SeedDownloader.new] at hdl⟩

/-- One step keeps what every run keeps. -/
theorem kept_step {σ σ' : Solo} {a : SoloAct} (h : σ.Kept cfg)
    (hstep : soloStep cfg σ a = some σ') : σ'.Kept cfg := by
  refine ⟨soloInv_step h.toInv hstep, fun hlive => ?_⟩
  cases a with
  | own a =>
    obtain ⟨he, -⟩ := soloStep_own hstep
    exact owed_step (h.known he) (h.owed he.alive) he hlive
  | other op =>
    obtain ⟨-, hs, -⟩ := soloStep_other hstep
    rw [hs] at hlive ⊢
    exact h.owed hlive

theorem mem_of_getElem?_ne_none {m : PendingPieces} {k : Nat} : k ∈ m ↔ m[k]? ≠ none := by
  rw [Std.ExtTreeMap.mem_iff_isSome_getElem?, Option.isSome_iff_ne_none]

/-- One step of a run keeps the counter exact, if it keeps the counter and the set
together. -/
theorem exact_step {σ σ' : Solo} {a : SoloAct}
    (h : σ.Kept cfg ∧ (σ.seed.Alive → Counted σ.seed)) (hok : CountStays σ a)
    (hstep : soloStep cfg σ a = some σ') : σ'.Kept cfg ∧ (σ'.seed.Alive → Counted σ'.seed) := by
  refine ⟨kept_step h.1 hstep, fun hlive => ?_⟩
  cases a with
  | own a =>
    obtain ⟨he, -⟩ := soloStep_own hstep
    refine counted_step (h.1.owed he.alive) (h.2 he.alive) he hlive ?_ ?_
    · intro heq hs
      subst heq
      exact hok hs
    · intro index begin block heq hs hmem
      subst heq
      by_cases hframed : (Message.piece index begin block).Framed
      · exact mem_of_getElem?_ne_none.mp (hok hs hframed hmem)
      · simp only [soloStep, seedStep, hs, if_neg hframed] at hstep
        cases hstep
  | other op =>
    obtain ⟨-, hs, -⟩ := soloStep_other hstep
    rw [hs] at hlive ⊢
    exact h.2 hlive

theorem counted_new : Counted SeedDownloader.new :=
  ⟨⟨rfl, Nat.zero_le _, fun j k ⟨dl, hdl, _⟩ => by simp [SeedDownloader.new] at hdl⟩, fun _ => rfl,
    by simp [SeedDownloader.new], by simp [SeedDownloader.new]⟩

/-- A choke at rest empties the set and leaves the counter. -/
theorem soloStep_choke {σ : Solo} (h : σ.Kept cfg) (hs : σ.seed.phase = .select) :
    ∃ σ', soloStep cfg σ (.own (.deliver .choke)) = some σ' ∧ σ'.seed.phase = .loopHead ∧
      σ'.seed.inflight = σ.seed.inflight ∧ σ'.seed.pendingBlocks = ∅ := by
  have hlive : σ.seed.Alive := by intro e he; rw [hs] at he; cases he
  cases hreset : SeedDownloader.resetPieces cfg.profile σ.seed.pendingPieces with
  | none =>
    obtain ⟨k, dl, hdl, hnum⟩ := resetPieces_eq_none hreset
    have hcounted := ((h.seed hlive).piece k dl hdl).counted
    rw [hnum] at hcounted
    cases hcounted
  | some pieces =>
    refine ⟨⟨σ.bitfield, { σ.seed with
      chokedUs := true, pendingPieces := pieces, pendingBlocks := ∅, phase := .loopHead }⟩,
      ?_, rfl, rfl, rfl⟩
    simp only [soloStep, seedStep, hs, Message.Framed, SeedDownloader.handleMsg,
      SeedDownloader.handleChoke, hreset]
    rfl

/-- A block without a piece leaves the set and not the counter. -/
theorem soloStep_orphan (cfg : Config) {σ : Solo} {index begin : UInt32} {block : List UInt8}
    (hs : σ.seed.phase = .select) (hframed : (Message.piece index begin block).Framed)
    (hmem : .received index begin block ∈ σ.seed.pendingBlocks)
    (hdl : σ.seed.pendingPieces[index.toNat]? = none) :
    ∃ σ', soloStep cfg σ (.own (.deliver (.piece index begin block))) = some σ' ∧
      σ'.seed.phase = .loopHead ∧ σ'.seed.inflight = σ.seed.inflight ∧
      σ'.seed.pendingBlocks = σ.seed.pendingBlocks.erase (.received index begin block) := by
  refine ⟨⟨σ.bitfield, { σ.seed with
    pendingBlocks := σ.seed.pendingBlocks.erase (.received index begin block)
    phase := .loopHead }⟩, ?_, rfl, rfl, rfl⟩
  simp only [soloStep, seedStep, hs, if_pos hframed, SeedDownloader.handleMsg, if_pos hmem, hdl]
  rfl

/-- If the counter is exact before a step and after it, the step has kept it. -/
theorem countStays_of_exact {σ : Solo} {a : SoloAct} (h : σ.Kept cfg)
    (hq : σ.seed.AtRest → σ.seed.inflight = σ.seed.pendingBlocks.card)
    (hq' : ∀ σ', soloStep cfg σ a = some σ' →
      σ'.seed.AtRest → σ'.seed.inflight = σ'.seed.pendingBlocks.card) : CountStays σ a := by
  unfold CountStays
  split
  next =>
    intro hs
    obtain ⟨σ', hstep, hs', hinf, hnone⟩ := soloStep_choke h hs
    have hcount := hq (Or.inr hs)
    rw [← hinf, hq' σ' hstep (Or.inl hs'), hnone] at hcount
    exact Finset.card_eq_zero.mp hcount.symm
  next index begin block =>
    intro hs hframed hmem
    by_contra hno
    have hdl : σ.seed.pendingPieces[index.toNat]? = none := by
      by_contra hne
      exact hno (mem_of_getElem?_ne_none.mpr hne)
    obtain ⟨σ', hstep, hs', hinf, hblocks⟩ := soloStep_orphan cfg hs hframed hmem hdl
    have hcount := hq (Or.inr hs)
    have hcard := Finset.card_erase_add_one hmem
    rw [← hinf, hq' σ' hstep (Or.inl hs'), hblocks] at hcount
    omega
  next => exact trivial

/-- **The counter is exact, exactly when** no choke drops an outstanding request
and no block arrives for a piece that is no longer pending. -/
theorem inflight_exact_iff (cfg : Config) (acts : List SoloAct) :
    AllStates (soloStep cfg)
      (fun σ => σ.seed.AtRest → σ.seed.inflight = σ.seed.pendingBlocks.card) (Solo.new cfg) acts ↔
    AllSteps (soloStep cfg) CountStays (Solo.new cfg) acts := by
  constructor
  · exact allSteps_of_allStates (fun _ _ _ h _ hs => kept_step h hs)
      (fun _ _ h hq hq' => countStays_of_exact h hq hq') (kept_new cfg)
  · intro hok
    refine (allStates_of_invariant (fun _ _ _ h ok hs => exact_step h ok hs)
      ⟨kept_new cfg, fun _ => counted_new⟩ hok).mono fun σ h hrest => ?_
    refine (h.2 fun e he => ?_).count
    rcases hrest with hs | hs <;> rw [hs] at he <;> cases he

/-- After the choke five requests are counted and none is outstanding. -/
theorem choke_keeps_counter :
    ¬ AllStates (soloStep tenBlocks)
      (fun σ => σ.seed.AtRest → σ.seed.inflight = σ.seed.pendingBlocks.card) (Solo.new tenBlocks)
      (unchokedRun ++ [.own .check, .own (.deliver .choke)]) := by
  decide +kernel

end Inflight

end BitTorrent
