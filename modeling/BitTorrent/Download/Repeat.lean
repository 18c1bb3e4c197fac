import BitTorrent.Download.Assembly
import BitTorrent.Download.Picker
import BitTorrent.Download.Wiring

/-!
# When the picker repeats

A downloader that picks a piece it has pending already returns without a new
request: "there are requests for all the blocks of all the *remaining* pieces".
The pieces pending are private to each downloader, the cursor is everyone's.

A piece is in progress when some downloader has it pending, or has picked it and
is about to send its first requests (`Sys.InProgress`). The rotation of the
picker meets the pieces that are not in progress first (`Swept`): a pick puts
its piece at the end of the rotation and in progress at once, and a piece is in
progress until it is owned. So when it comes round to a piece in progress, no
other is left (`repeated_pick`).

The general fact is one about the rotation (`IdleFirst` in `Lib.Sweep`). Here it is
carried along a run of the whole system, in which a step of one downloader moves the
shared cursor. It needs that nobody drops a piece: a downloader that ends or panics,
or whose first batch fails, takes its pieces with it. The runs meant are those in
which all downloaders run on and all sends succeed.

That the piece is in progress does not mean that all its blocks have been requested,
by somebody.
-/

namespace BitTorrent

/-- The piece whose first requests are about to be sent. -/
def Phase.starts : Phase → Option Nat
  | .start index _ => some index
  | _ => none

/-- The task has the piece pending, or has picked it. -/
def SeedDownloader.Holds (s : SeedDownloader) (i : Nat) : Prop :=
  i ∈ s.pendingPieces ∨ s.phase.starts = some i

/-- Some downloader is at the piece. -/
def Sys.InProgress (σ : Sys) (i : Nat) : Prop :=
  ∃ (k : Nat) (s : SeedDownloader), σ.seeds[k]? = some s ∧ s.Holds i

/-- No downloader is over. -/
def Sys.Running (σ : Sys) : Prop := ∀ (k : Nat) s, σ.seeds[k]? = some s → s.phase.gone = false

/-- No send of the step fails. -/
def Action.SendsSucceed : Action → Prop
  | .seed _ a => a.SendsSucceed
  | _ => True

instance : ∀ a : Action, Decidable a.SendsSucceed
  | .seed _ a => inferInstanceAs (Decidable a.SendsSucceed)
  | .pickSeeds | .peer _ | .peerPanic | .picked | .recv _ | .recvClosed | .lock _ | .finish
  | .readPanic _ | .send _ | .sendErr _ => isTrue trivial

/-- When a downloader is about to pick a piece it has pending already, every
piece that is not owned is in progress. -/
def Sys.RepeatBusy (su : Setup) (σ : Sys) : Prop :=
  ∀ (k : Nat) s i, σ.seeds[k]? = some s → s.phase = .pick →
    σ.bitfield.pickPiece.2 = .returned (some i) → i ∈ s.pendingPieces →
    ∀ j, j < su.cfg.torrent.numPieces → ¬ σ.bitfield.Owns j → σ.InProgress j

/-- The rotation meets the pieces that are not in progress first. -/
def Swept (su : Setup) (σ : Sys) : Prop :=
  ∃ r, Bitfield.Rotates su.cfg.torrent.numPieces σ.bitfield r ∧
    Sweep.IdleFirst r {i | σ.InProgress i}

section Repeat

variable {su : Setup} {cfg : Config} {b : Bitfield} {s s' : SeedDownloader} {a : SeedAct}
  {σ σ' : Sys} {act : Action}

/-! ## One downloader -/

/-- A task that takes a step is not over. -/
theorem Effect.running (he : Effect cfg b s a s') : s.phase.gone = false := by
  cases he with
  | move hm =>
    cases hm with
    | finish hs | listen hs | ignore hs | streamEnd hs | sendOk hs | sendErr hs | leave hs
    | release hs | choked hs | pickNone hs | pickPending hs | pickNew hs => rw [hs]; rfl
  | choke hs | unchoke hs | orphan hs | block hs | valid hs | invalid hs | request hs
  | requestFailed hs | start hs | startFailed hs => rw [hs]; rfl
  | panic hcause hs' =>
    cases hcause with
    | remaining hs | choke hs | remainingBlocks hs | inflight hs | splice hs | notImplemented hs
    | set hs | notPending hs | request hs | pick hs | newPiece hs | start hs
    | alreadyPending hs => rw [hs]; rfl

theorem bitOp_of_ignores (ha : s.Ignores a) : s.bitOp a = none := by
  cases a with
  | setPiece | pick => exact ha.elim
  | check | keepAlive | streamEnd | streamError | deliver | sendOk | sendErr | release | request
  | start => rfl

theorem mem_of_getElem? {m : PendingPieces} {k : Nat} {dl : PieceDownload}
    (hdl : m[k]? = some dl) : k ∈ m :=
  Std.ExtTreeMap.mem_iff_isSome_getElem?.mpr (Option.isSome_iff_exists.mpr ⟨dl, hdl⟩)

theorem mem_insert_iff {m : PendingPieces} {k j : Nat} {dl : PieceDownload} :
    j ∈ m.insert k dl ↔ k = j ∨ j ∈ m := by
  rw [Std.ExtTreeMap.mem_insert, Std.LawfulEqCmp.compare_eq_iff_eq]

theorem mem_erase_iff {m : PendingPieces} {k j : Nat} : j ∈ m.erase k ↔ k ≠ j ∧ j ∈ m := by
  rw [Std.ExtTreeMap.mem_erase, ne_eq, Std.LawfulEqCmp.compare_eq_iff_eq]

/-- A piece that is pending already. -/
theorem mem_insert_of_mem {m : PendingPieces} {k j : Nat} {dl : PieceDownload} (hk : k ∈ m) :
    j ∈ m.insert k dl ↔ j ∈ m := by
  rw [mem_insert_iff]
  exact ⟨fun hj => hj.elim (fun hkj => hkj ▸ hk) id, Or.inr⟩

/-- A choke leaves the pieces pending. -/
theorem resetPieces_mem {p : Profile} {m m' : PendingPieces} {j : Nat}
    (h : SeedDownloader.resetPieces p m = some m') : j ∈ m' ↔ j ∈ m := by
  constructor
  · intro hj
    obtain ⟨dl, -, hdl, -⟩ :=
      resetPieces_eq_some h (Std.ExtTreeMap.getElem?_eq_some_getElem hj)
    exact mem_of_getElem? hdl
  · intro hj
    obtain ⟨dl, hdl⟩ := resetPieces_isSome h (Std.ExtTreeMap.getElem?_eq_some_getElem hj)
    exact mem_of_getElem? hdl

/-- Requests are for pieces that are pending. -/
theorem requestPending_mem (p : Profile) (order : List Nat) (s : SeedDownloader) (w : Wire) :
    (requestPending p order s w).Sat
      (fun sw => ∀ j, j ∈ sw.1.pendingPieces ↔ j ∈ s.pendingPieces)
      (fun sw => ∀ j, j ∈ sw.1.pendingPieces ↔ j ∈ s.pendingPieces) (fun _ => True) :=
  SeedDownloader.requestPending_invariant
    (I := fun s' => ∀ j, j ∈ s'.pendingPieces ↔ j ∈ s.pendingPieces)
    (fun _ _ _ _ h hdl _ _ _ j => (mem_insert_of_mem (mem_of_getElem? hdl)).trans (h j))
    order s w fun _ => Iff.rfl

/-- **What a task holds.** A pick adds the piece that is returned. Besides that
only the piece that is set is lost, when the first requests of a piece do not fail. -/
theorem holds_step (he : Effect cfg b s a s') (hlive : s'.phase.gone = false)
    (hsends : ∀ sends, a = .start sends → sends = none) {j : Nat}
    (hset : s.bitOp a ≠ some (.set j)) :
    s'.Holds j ↔ s.Holds j ∨ (s.bitOp a = some .pick ∧ b.pickPiece.2 = .returned (some j)) := by
  unfold SeedDownloader.Holds
  cases he with
  | move hm =>
    cases hm with
    | finish hs | listen hs | streamEnd hs | sendOk hs | sendErr hs | release hs | choked hs =>
      simp [SeedDownloader.goto, SeedDownloader.bitOp, Phase.starts, hs]
    | ignore hs ha => simp [SeedDownloader.goto, bitOp_of_ignores ha, Phase.starts, hs]
    | leave hs ha =>
      rcases ha with rfl | rfl <;>
        simp [SeedDownloader.goto, SeedDownloader.bitOp, Phase.starts, hs]
    | pickNone hs hb => simp [SeedDownloader.goto, SeedDownloader.bitOp, Phase.starts, hs, hb]
    | pickPending hs hb hdl =>
      simp only [SeedDownloader.goto, SeedDownloader.bitOp, Phase.starts, hs, hb]
      grind
    | pickNew hs hb hdl hnew =>
      simp only [SeedDownloader.goto, SeedDownloader.bitOp, Phase.starts, hs, hb]
      grind
  | choke hs hreset => simp [SeedDownloader.bitOp, Phase.starts, hs, resetPieces_mem hreset]
  | unchoke hs hc => simp [SeedDownloader.bitOp, Phase.starts, hs]
  | orphan hs hmem hdl => simp [SeedDownloader.bitOp, Phase.starts, hs]
  | block hs hframed hmem hdl hrem hinf hsplice =>
    simp only [SeedDownloader.bitOp, mem_insert_of_mem (mem_of_getElem? hdl), hs]
    split <;> simp [Phase.starts]
  | valid hs hb hdl hvalid | invalid hs hb hdl hvalid =>
    -- the piece that is lost is the one that is set
    rw [SeedDownloader.bitOp, hs] at hset
    simp only [SeedDownloader.bitOp, Phase.starts, hs, mem_erase_iff]
    grind
  | @request order sends s₁ w hs hc horder hreq =>
    have hmem := requestPending_mem cfg.profile order s ⟨sends, []⟩
    rw [hreq] at hmem
    simp only [SeedDownloader.goto, SeedDownloader.bitOp, hs, hmem j]
    split <;> simp [Phase.starts]
  | @requestFailed order sends s₁ w hs hc horder hreq =>
    have hmem := requestPending_mem cfg.profile order s ⟨sends, []⟩
    rw [hreq] at hmem
    simp [SeedDownloader.goto, SeedDownloader.bitOp, Phase.starts, hs, hmem j]
  | start hs hdl hreq =>
    simp only [SeedDownloader.goto, SeedDownloader.apply, SeedDownloader.bitOp, Phase.starts, hs,
      mem_insert_iff]
    grind
  | @startFailed index dl sends r hs hreq =>
    have hnot := requestBlocks_not_failed cfg.profile index
      (r := ⟨dl, s.inflight, s.pendingBlocks, ⟨sends, []⟩⟩) (hsends sends rfl)
    rw [hreq] at hnot
    exact hnot.elim
  | panic hcause hs' =>
    rw [hs'] at hlive
    cases hlive

/-! ## All of them -/

/-- If nobody is over after a step, nobody was before. -/
theorem SeedsChange.running (h : SeedsChange cfg σ act σ') (hlive : σ'.Running) : σ.Running := by
  intro j t hj
  cases h with
  | stay hs hb => exact hlive j t (hs ▸ hj)
  | spawn hs hb =>
    refine hlive j t ?_
    rw [hs, List.getElem?_append_left (List.getElem?_eq_some_iff.mp hj).1]
    exact hj
  | @crash k s hk hselect hs hb =>
    by_cases hjk : j = k
    · subst hjk
      rw [hk] at hj
      rw [← Option.some.inj hj, hselect]
      rfl
    · refine hlive j t ?_
      rw [hs, List.getElem?_set_ne (Ne.symm hjk)]
      exact hj
  | @move k s s' a hk he ha hs hb =>
    by_cases hjk : j = k
    · subst hjk
      rw [hk] at hj
      rw [← Option.some.inj hj]
      exact he.running
    · refine hlive j t ?_
      rw [hs, List.getElem?_set_ne (Ne.symm hjk)]
      exact hj

/-- The step of one downloader. -/
theorem inProgress_set {k : Nat} (hk : σ.seeds[k]? = some s) (hs : σ'.seeds = σ.seeds.set k s')
    {j : Nat} {P : Prop} (h : s'.Holds j ↔ s.Holds j ∨ P) :
    σ'.InProgress j ↔ σ.InProgress j ∨ P := by
  have hlt := (List.getElem?_eq_some_iff.mp hk).1
  have hself : σ'.seeds[k]? = some s' := by rw [hs, List.getElem?_set_self hlt]
  have hother : ∀ l, l ≠ k → σ'.seeds[l]? = σ.seeds[l]? := fun l hl => by
    rw [hs, List.getElem?_set_ne (Ne.symm hl)]
  constructor
  · intro hprog
    obtain ⟨l, t, hl, ht⟩ := hprog
    by_cases hlk : l = k
    · subst hlk
      rw [hself] at hl
      obtain rfl := Option.some.inj hl
      exact (h.mp ht).imp (fun ht => ⟨l, s, hk, ht⟩) id
    · exact Or.inl ⟨l, t, by rw [← hother l hlk, hl], ht⟩
  · intro hprog
    rcases hprog with ⟨l, t, hl, ht⟩ | hP
    · by_cases hlk : l = k
      · subst hlk
        rw [hk] at hl
        obtain rfl := Option.some.inj hl
        exact ⟨l, s', hself, h.mpr (Or.inl ht)⟩
      · exact ⟨l, t, by rw [hother l hlk, hl], ht⟩
    · exact ⟨k, s', hself, h.mpr (Or.inr hP)⟩

theorem swept_new (su : Setup) : Swept su (Sys.new su) := by
  refine ⟨_, Bitfield.rotates_of_inv (Bitfield.inv_zero _), fun x _ _ y _ hbusy => ?_⟩
  obtain ⟨k, s, hk, -⟩ := hbusy
  simp [Sys.new] at hk

/-- What a call of `pick_piece` returns is what the rotation returns. -/
theorem pickPiece_eq_some {n : Nat} {r : Sweep.State Nat} (h : Bitfield.Rotates n b r)
    (hn : n < 2 ^ 32) {j : Nat} :
    b.pickPiece.2 = .returned (some j) ↔ (Sweep.step r .pick).2 = some j := by
  have hout := (Bitfield.rotates_call h hn (show BitOp.pick.InRange n from trivial)).2
  rw [show b.call .pick = b.pickPiece from rfl] at hout
  change _ = (Sweep.step r .pick).2.toList at hout
  rcases Bitfield.pickPiece_spec h.inv hn with ⟨-, heq⟩ | ⟨m, -, -, -, heq⟩
  · rw [heq] at hout ⊢
    rw [Option.toList_eq_nil_iff.mp hout.symm]
    simp
  · rw [heq] at hout ⊢
    cases hstep : (Sweep.step r .pick).2 with
    | none => rw [hstep] at hout; cases hout
    | some y =>
      rw [hstep] at hout
      obtain rfl : m = y := List.singleton_inj.mp hout
      simp

/-- One step keeps the sweep, if its sends succeed and nobody ends. -/
theorem swept_step (hi : σ.Inv su) (h : Swept su σ) (hstep : sysStep su σ act = some σ')
    (hsends : act.SendsSucceed) (hlive : σ'.Running) : Swept su σ' := by
  obtain ⟨r, hrot, hidle⟩ := h
  have hn := su.cfg.torrent.numPieces_lt
  cases (change_of_step hstep).seeds with
  | stay hs hb =>
    refine ⟨r, by rw [hb]; exact hrot, hidle.congr fun x _ => ?_⟩
    show σ'.InProgress x ↔ σ.InProgress x
    unfold Sys.InProgress
    rw [hs]
  | spawn hs hb =>
    refine ⟨r, by rw [hb]; exact hrot, hidle.congr fun x _ => ⟨fun hx => ?_, fun hx => ?_⟩⟩
    · obtain ⟨k, s, hk, hheld⟩ := hx
      rw [hs] at hk
      rcases seeds_spawn hk with ⟨-, rfl⟩ | hk
      · simp [SeedDownloader.Holds, SeedDownloader.new, Phase.starts] at hheld
      · exact ⟨k, s, hk, hheld⟩
    · obtain ⟨k, s, hk, hheld⟩ := hx
      refine ⟨k, s, ?_, hheld⟩
      rw [hs, List.getElem?_append_left (List.getElem?_eq_some_iff.mp hk).1]
      exact hk
  | @crash k s hk hselect hs hb =>
    -- the downloader is over after the step
    have hgone := hlive k s.crash
      (by rw [hs, List.getElem?_set_self (List.getElem?_eq_some_iff.mp hk).1])
    cases hgone
  | @move k s s' a hk he ha hs hb =>
    have hlt := (List.getElem?_eq_some_iff.mp hk).1
    have hrun : s'.phase.gone = false := hlive k s' (by rw [hs, List.getElem?_set_self hlt])
    have hstart : ∀ sends, a = .start sends → sends = none := fun sends hstart => by
      subst hstart
      rcases ha with hkind | rfl
      · cases hkind
      · exact hsends
    have hheld : ∀ x, s.bitOp a ≠ some (.set x) → (σ'.InProgress x ↔ σ.InProgress x ∨
        (s.bitOp a = some .pick ∧ σ.bitfield.pickPiece.2 = .returned (some x))) :=
      fun x hset => inProgress_set hk hs (holds_step he hrun hstart hset)
    have hrange : ∀ op, s.bitOp a = some op → op.InRange su.cfg.torrent.numPieces := fun op hop =>
      (hi.known k s hk he.alive).bitOp_inRange hop
    cases hop : s.bitOp a with
    | none =>
      rw [hop] at hb hheld
      refine ⟨r, by rw [hb]; exact hrot, hidle.congr fun x _ => ?_⟩
      have hno : ¬ (none = some BitOp.pick ∧ σ.bitfield.pickPiece.2 = .returned (some x)) := by
        intro h
        cases h.1
      have hset : none ≠ some (BitOp.set x) := by
        intro h
        cases h
      exact (hheld x hset).trans (or_iff_left hno)
    | some op =>
      rw [hop] at hb hheld
      have hrot' := (Bitfield.rotates_call hrot hn (hrange op hop)).1
      refine ⟨_, by rw [hb]; exact hrot', (hidle.step _).congr fun x hx => ?_⟩
      show σ'.InProgress x ↔ σ.InProgress x ∨ (Sweep.step r (Bitfield.sweepOp op)).2 = some x
      cases op with
      | set i =>
        -- the piece that is set is not missing any more
        have hne : i ≠ x := by
          intro heq₁
          subst heq₁
          exact Finset.notMem_erase i r.missing hx
        refine (hheld x fun heq => hne (BitOp.set.inj (Option.some.inj heq))).trans ?_
        have hno : ¬ (some (BitOp.set i) = some .pick ∧
            σ.bitfield.pickPiece.2 = .returned (some x)) := by
          intro h
          cases h.1
        have hidle' : ¬ (Sweep.step r (Bitfield.sweepOp (.set i))).2 = some x := by
          intro h
          cases h
        exact (or_iff_left hno).trans (or_iff_left hidle').symm
      | pick =>
        have hset : some BitOp.pick ≠ some (.set x) := by
          intro h
          cases h
        rw [hheld x hset, pickPiece_eq_some hrot hn]
        exact or_congr Iff.rfl (and_iff_right rfl)

/-- The piece that is picked is the rotation's next one. -/
theorem Swept.repeatBusy (h : Swept su σ) : σ.RepeatBusy su := by
  intro k s i hk _ hpick hi j hj hun
  obtain ⟨r, hrot, hidle⟩ := h
  have hstep := (pickPiece_eq_some hrot su.cfg.torrent.numPieces_lt).mp hpick
  have hnext : Sweep.next r = some i := by
    rcases Sweep.step_pick r with ⟨-, hs⟩ | ⟨y, hy, hs⟩
    · rw [hs] at hstep
      cases hstep
    · rw [hs] at hstep
      rw [hy, ← hstep]
  refine hidle.busy_of_next hnext ⟨k, s, hk, Or.inl hi⟩ j ?_
  rw [hrot.missing, Bitfield.mem_missing hrot.inv]
  exact ⟨hj, hun⟩

/-- **A repeated pick means that everything is in progress.** In every run whose
sends succeed, as long as no downloader is over: when one of them picks a piece
it has pending already, every piece that is not owned is pending in some
downloader, or some downloader is about to send its first requests. -/
theorem repeated_pick (su : Setup) (acts : List Action)
    (hsends : ∀ act ∈ acts, act.SendsSucceed) :
    AllStates (sysStep su) (fun σ => σ.Running → σ.RepeatBusy su) (Sys.new su) acts := by
  have hkeep : ∀ σ act σ', (σ.Inv su ∧ (σ.Running → Swept su σ)) → act.SendsSucceed →
      sysStep su σ act = some σ' → σ'.Inv su ∧ (σ'.Running → Swept su σ') := by
    intro σ act σ' h hsend hstep
    refine ⟨inv_step h.1 hstep, fun hlive => ?_⟩
    have hswept := h.2 ((change_of_step hstep).seeds.running hlive)
    exact swept_step h.1 hswept hstep hsend hlive
  exact (allStates_of_invariant hkeep ⟨inv_new su, fun _ => swept_new su⟩
    (allSteps_of_forall hsends)).mono fun _ h hlive => (h.2 hlive).repeatBusy

/-- Two peers have a piece each, and the first chokes and unchokes us: we pick
the piece we have of it again. -/
def chokedOnce : List Action :=
  [.pickSeeds, .peer true, .peer true, .picked] ++ Action.join 0 ++ Action.join 1 ++
    [.seed 0 (.deliver .choke), .lock (.seed 0), .seed 0 .check, .seed 0 (.deliver .unchoke),
      .seed 0 (.request [0] none)]

theorem repeated_pick_two :
    (run (sysStep { lone .dev with peers := 2 }) (Sys.new { lone .dev with peers := 2 })
      chokedOnce).map (fun σ => σ.bitfield.pickPiece.2) = some (.returned (some 0)) ∧
    AllStates (sysStep { lone .dev with peers := 2 })
      (fun σ => σ.Running → σ.RepeatBusy { lone .dev with peers := 2 })
      (Sys.new { lone .dev with peers := 2 }) chokedOnce :=
  ⟨by decide +kernel, repeated_pick _ chokedOnce (by decide +kernel)⟩

end Repeat

end BitTorrent
