import BitTorrent.Download.Blocks

/-!
# The bound on outstanding requests

`request_blocks` stops after the request that brings `inflight` to
`MAX_INFLIGHT_PER_PEER`. It tests for equality, so a call that starts with the
counter already there sends a request for every block of its piece.
`belowLimit` says that no call does, in terms of what the loop of
`request_pieces` finds: the counter, and how many blocks each piece has left to
request. As long as that holds, the outstanding requests are at most `inflight`
and `inflight` is at most 5 (`pipeline_bounded`), whatever gets choked in between.

The condition is computed from the state before the step. A call that starts with
`c` in flight and finds `u` blocks sends as many requests as fit below the limit,
and the next call starts with the counter that it leaves. A choke is what makes the
condition fail: it leaves the counter where it was, and all pieces have blocks to
request again.

So the set and the counter are bounded, and not compared (`Pipe`). After a choke
there is less outstanding than the counter says.
-/

namespace BitTorrent

/-- The unrequested blocks of the pieces of `order`. -/
def SeedDownloader.unrequestedIn (s : SeedDownloader) (order : List Nat) : List Nat :=
  order.map fun k => ((s.pendingPieces[k]?).map PieceDownload.unrequested).getD 0

/-- Every call of `request_blocks` for pieces with `us` blocks to request starts
below the limit, when `sends` more messages can be sent and the counter is `c`. -/
def belowLimit : Option Nat → Nat → List Nat → Bool
  | _, _, [] => true
  | sends, c, 0 :: us => belowLimit sends c us
  | none, c, (u + 1) :: us =>
    c < maxInflightPerPeer && belowLimit none (c + min (u + 1) (maxInflightPerPeer - c)) us
  | some m, c, (u + 1) :: us =>
    c < maxInflightPerPeer && (m < min (u + 1) (maxInflightPerPeer - c) ||
      belowLimit (some (m - min (u + 1) (maxInflightPerPeer - c)))
        (c + min (u + 1) (maxInflightPerPeer - c)) us)

/-- The calls of `request_blocks` in the next step start below the limit. -/
def RequestsBelowLimit (σ : Solo) : SoloAct → Prop
  | .own (.request order sends) => σ.seed.phase = .request → σ.seed.chokedUs = false →
    belowLimit sends σ.seed.inflight (σ.seed.unrequestedIn order) = true
  | _ => True

/-- The `+= 1` and `-= 1` of the step on `inflight` are those of the natural
numbers: the counter grows by one for each message sent. -/
def Unwrapped (cfg : Config) (σ : Solo) : SoloAct → Prop
  | .own (.deliver (.piece index begin block)) =>
    σ.seed.phase = .select → .received index begin block ∈ σ.seed.pendingBlocks →
      1 ≤ σ.seed.inflight
  | .own (.request order sends) => ∀ out,
    seedStep cfg σ.bitfield σ.seed (.request order sends) = some out → out.seed.Alive →
      out.seed.inflight = σ.seed.inflight + out.sent.length
  | .own (.start sends) => ∀ out,
    seedStep cfg σ.bitfield σ.seed (.start sends) = some out → out.seed.Alive →
      out.seed.inflight = σ.seed.inflight + out.sent.length
  | _ => True

instance (σ : Solo) : ∀ a, Decidable (RequestsBelowLimit σ a)
  | .own (.request ..) => inferInstanceAs (Decidable (_ → _ → _ = true))
  | .own .check | .own (.keepAlive _) | .own .streamEnd | .own .streamError | .own (.deliver _)
  | .own .setPiece | .own .sendOk | .own .sendErr | .own .release | .own .pick | .own (.start _)
  | .other _ => isTrue trivial

/-- The pipeline of a task: its requests are counted, and the counter is bounded. -/
structure Pipe (s : SeedDownloader) : Prop where
  card_le : s.pendingBlocks.card ≤ s.inflight
  le : s.inflight ≤ maxInflightPerPeer
  room : s.phase = .pick ∨ (∃ k dl, s.phase = .start k dl) → s.inflight < maxInflightPerPeer

section Pipe

variable {cfg : Config} {b : Bitfield} {s s' : SeedDownloader} {a : SeedAct}

/-- A send that succeeds uses up one of those that are left. -/
theorem Wire.send_cases {w w' : Wire} {msg : Message} (h : w.send msg = some w') :
    w'.sent = w.sent ++ [msg] ∧
      (w.sends = none ∧ w'.sends = none ∨ ∃ m, w.sends = some (m + 1) ∧ w'.sends = some m) := by
  unfold Wire.send at h
  split at h
  next heq => rw [← Option.some.inj h]; exact ⟨rfl, Or.inl ⟨heq, rfl⟩⟩
  next => cases h
  next m heq => rw [← Option.some.inj h]; exact ⟨rfl, Or.inr ⟨m, heq, rfl⟩⟩

theorem belowLimit_lt {sends : Option Nat} {c u : Nat} {us : List Nat}
    (h : belowLimit sends c ((u + 1) :: us) = true) : c < maxInflightPerPeer := by
  cases sends with
  | none => exact of_decide_eq_true (Bool.and_eq_true_iff.mp h).1
  | some m => exact of_decide_eq_true (Bool.and_eq_true_iff.mp h).1

/-- One request takes a block from the first piece. Unless it reaches the limit,
the call goes on with the rest of the piece. -/
theorem belowLimit_push {w w' : Wire} {msg : Message} {c u : Nat} {us : List Nat}
    (h : belowLimit w.sends c ((u + 1) :: us) = true) (hsend : w.send msg = some w') :
    (c + 1 = maxInflightPerPeer → belowLimit w'.sends (c + 1) us = true) ∧
    (c + 1 ≠ maxInflightPerPeer → belowLimit w'.sends (c + 1) (u :: us) = true) := by
  have hc := belowLimit_lt h
  obtain ⟨-, hsends⟩ := Wire.send_cases hsend
  rcases hsends with ⟨h₁, h₂⟩ | ⟨m, h₁, h₂⟩
  · rw [h₁] at h
    rw [h₂]
    have hrest := (Bool.and_eq_true_iff.mp h).2
    refine ⟨fun heq => ?_, fun hne => ?_⟩
    · rw [show min (u + 1) (maxInflightPerPeer - c) = 1 by omega] at hrest
      exact hrest
    · cases u with
      | zero =>
        rw [show min (0 + 1) (maxInflightPerPeer - c) = 1 by omega] at hrest
        exact hrest
      | succ u =>
        refine Bool.and_eq_true_iff.mpr ⟨decide_eq_true (by omega), ?_⟩
        rw [show c + 1 + min (u + 1) (maxInflightPerPeer - (c + 1)) =
          c + min (u + 1 + 1) (maxInflightPerPeer - c) by omega]
        exact hrest
  · rw [h₁] at h
    rw [h₂]
    have hrest := Bool.or_eq_true_iff.mp (Bool.and_eq_true_iff.mp h).2
    refine ⟨fun heq => ?_, fun hne => ?_⟩
    · rw [show min (u + 1) (maxInflightPerPeer - c) = 1 by omega] at hrest
      rcases hrest with hlt | hrest
      · exact absurd (of_decide_eq_true hlt) (by omega)
      · exact hrest
    · cases u with
      | zero =>
        rw [show min (0 + 1) (maxInflightPerPeer - c) = 1 by omega] at hrest
        rcases hrest with hlt | hrest
        · exact absurd (of_decide_eq_true hlt) (by omega)
        · exact hrest
      | succ u =>
        refine Bool.and_eq_true_iff.mpr ⟨decide_eq_true (by omega), Bool.or_eq_true_iff.mpr ?_⟩
        have hmin : min (u + 1 + 1) (maxInflightPerPeer - c) =
          min (u + 1) (maxInflightPerPeer - (c + 1)) + 1 := by omega
        rcases hrest with hlt | hrest
        · have hlt' := of_decide_eq_true hlt
          exact Or.inl (decide_eq_true (by omega))
        · right
          rw [hmin, Nat.add_sub_add_right] at hrest
          rw [show c + 1 + min (u + 1) (maxInflightPerPeer - (c + 1)) =
            c + (min (u + 1) (maxInflightPerPeer - (c + 1)) + 1) by omega]
          exact hrest

theorem unrequestedIn_cons (s : SeedDownloader) (k : Nat) (order : List Nat) :
    s.unrequestedIn (k :: order) =
      ((s.pendingPieces[k]?).map PieceDownload.unrequested).getD 0 :: s.unrequestedIn order := rfl

/-- A piece that is skipped has nothing left to request. -/
theorem unrequestedIn_skip {k : Nat}
    (h : ∀ dl, s.pendingPieces[k]? = some dl → dl.requested = dl.pieceLength) (order : List Nat) :
    s.unrequestedIn (k :: order) = 0 :: s.unrequestedIn order := by
  rw [unrequestedIn_cons]
  cases hdl : s.pendingPieces[k]? with
  | none => rfl
  | some dl =>
    rw [Option.map_some, Option.getD_some,
      PieceDownload.unrequested_of_le (Nat.le_of_eq (h dl hdl).symm)]

theorem unrequestedIn_apply {k : Nat} {order : List Nat} (hk : k ∉ order) (r : Requests) :
    (s.apply k r).unrequestedIn order = s.unrequestedIn order := by
  refine List.map_congr_left fun j hj => ?_
  have hne : k ≠ j := fun h => hk (h ▸ hj)
  rw [show (s.apply k r).pendingPieces = s.pendingPieces.insert k r.dl from rfl,
    SeedDownloader.insert_getElem?, if_neg hne]

/-! ## The two loops -/

/-- The same inside a batch of requests that started at `c₀`. -/
structure Piped (c₀ : Nat) (blocks : Finset BlockDownload) (inflight : Nat) (w : Wire) : Prop where
  card_le : blocks.card ≤ inflight
  le : inflight ≤ maxInflightPerPeer
  sent : inflight = c₀ + w.sent.length

/-- A call that starts below the limit stops at it, and the calls after it start below
it as well. -/
theorem requestBlocks_piped {p : Profile} {c₀ k : Nat} {r : Requests} {us : List Nat}
    (hr : Piped c₀ r.blocks r.inflight r.wire)
    (hbelow : belowLimit r.wire.sends r.inflight (r.dl.unrequested :: us) = true) :
    (requestBlocks p k r).Sat
      (fun r' => Piped c₀ r'.blocks r'.inflight r'.wire ∧
        belowLimit r'.wire.sends r'.inflight us = true)
      (fun r' => Piped c₀ r'.blocks r'.inflight r'.wire)
      (fun e => e ≠ .inflightOverflow) := by
  have hrule := requestBlocks_rule (p := p) (k := k)
    (P := fun r => Piped c₀ r.blocks r.inflight r.wire ∧
      belowLimit r.wire.sends r.inflight (r.dl.unrequested :: us) = true)
    (Q := fun r => Piped c₀ r.blocks r.inflight r.wire ∧
      (r.inflight = maxInflightPerPeer → belowLimit r.wire.sends r.inflight us = true) ∧
      (r.inflight ≠ maxInflightPerPeer →
        belowLimit r.wire.sends r.inflight (r.dl.unrequested :: us) = true))
    ?push (fun r hr hne => ⟨hr.1, hr.2.2 hne⟩) ?done r ⟨hr, hbelow⟩
  case push =>
    intro r inflight wire h hlt hnew hadd hsend
    obtain ⟨hr, hbelow⟩ := h
    -- one block of the bound is used up
    rw [← SeedDownloader.unrequested_advance hlt k] at hbelow
    have hc := belowLimit_lt hbelow
    have hmax : maxInflightPerPeer = 5 := rfl
    rw [p.add_of_lt (by omega)] at hadd
    obtain rfl := Option.some.inj hadd
    refine ⟨⟨?_, hc, ?_⟩, belowLimit_push hbelow hsend⟩
    · have hcard := hr.card_le
      show (insert _ r.blocks).card ≤ r.inflight + 1
      rw [Finset.card_insert_of_notMem hnew]
      omega
    · have hsent := hr.sent
      show r.inflight + 1 = c₀ + wire.sent.length
      rw [(Wire.send_cases hsend).1, List.length_append, List.length_singleton]
      omega
  case done =>
    intro r h hle
    obtain ⟨hr, hbelow⟩ := h
    refine ⟨hr, fun _ => ?_, fun _ => hbelow⟩
    rw [PieceDownload.unrequested_of_le hle] at hbelow
    exact hbelow
  refine hrule.mono (fun r' hr' => ⟨hr'.1.1, ?_⟩) (fun r' hr' => hr'.1.1) (fun e he => ?_)
  · by_cases hfull : r'.inflight = maxInflightPerPeer
    · exact hr'.1.2.1 hfull
    · have hbelow' := hr'.1.2.2 hfull
      rw [PieceDownload.unrequested_of_le (hr'.2.resolve_right hfull)] at hbelow'
      exact hbelow'
  · obtain ⟨r', ⟨-, hbelow'⟩, ⟨hlt, -⟩, he⟩ := he
    rcases he with ⟨rfl, -⟩ | ⟨rfl, hadd⟩
    · exact (nomatch ·)
    · rw [← SeedDownloader.unrequested_advance hlt k] at hbelow'
      have hc := belowLimit_lt hbelow'
      have hmax : maxInflightPerPeer = 5 := rfl
      rw [p.add_of_lt (by omega)] at hadd
      cases hadd

/-- The loop over the pending pieces stays in the limit. -/
theorem requestPending_piped {p : Profile} {c₀ : Nat} {w : Wire} {order : List Nat}
    (hnodup : order.Nodup) (h : Piped c₀ s.pendingBlocks s.inflight w)
    (hbelow : belowLimit w.sends s.inflight (s.unrequestedIn order) = true) :
    (requestPending p order s w).Sat
      (fun sw => Piped c₀ sw.1.pendingBlocks sw.1.inflight sw.2)
      (fun sw => Piped c₀ sw.1.pendingBlocks sw.1.inflight sw.2)
      (fun e => e ≠ .inflightOverflow) := by
  have hrule := requestPending_rule (p := p)
    (I := fun order s w => order.Nodup ∧ Piped c₀ s.pendingBlocks s.inflight w ∧
      belowLimit w.sends s.inflight (s.unrequestedIn order) = true)
    (F := fun s w => Piped c₀ s.pendingBlocks s.inflight w) (E := fun e => e ≠ .inflightOverflow)
    ?skip (fun _ _ _ _ _ _ _ _ => ⟨fun _ => (nomatch ·), fun _ => (nomatch ·)⟩) ?piece
    order s w ⟨hnodup, h, hbelow⟩
  case skip =>
    intro k order s w hp hfull
    obtain ⟨hnodup, h, hbelow⟩ := hp
    refine ⟨(List.nodup_cons.mp hnodup).2, h, ?_⟩
    rw [unrequestedIn_skip hfull] at hbelow
    exact hbelow
  case piece =>
    intro k order s w dl hp hdl _
    obtain ⟨hnodup, h, hbelow⟩ := hp
    obtain ⟨hk, hnodup⟩ := List.nodup_cons.mp hnodup
    rw [unrequestedIn_cons, hdl] at hbelow
    refine (requestBlocks_piped h hbelow).mono (fun r hr => ⟨hnodup, hr.1, ?_⟩) (fun r hr => hr)
      (fun e he => he)
    rw [unrequestedIn_apply hk]
    exact hr.2
  exact hrule.mono (fun sw hsw => hsw.2.1) (fun sw hsw => hsw) (fun e he => he)

/-- One call starts below the limit when the counter is. -/
theorem belowLimit_singleton {sends : Option Nat} {c : Nat} (hc : c < maxInflightPerPeer)
    (u : Nat) : belowLimit sends c [u] = true := by
  cases u with
  | zero => cases sends <;> rfl
  | succ u =>
    cases sends with
    | none => exact Bool.and_eq_true_iff.mpr ⟨decide_eq_true hc, rfl⟩
    | some m =>
      exact Bool.and_eq_true_iff.mpr ⟨decide_eq_true hc, Bool.or_eq_true_iff.mpr (Or.inr rfl)⟩

/-! ## Steps and runs -/

theorem Pipe.piped (h : Pipe s) (sends : Option Nat) :
    Piped s.inflight s.pendingBlocks s.inflight ⟨sends, []⟩ :=
  ⟨h.card_le, h.le, rfl⟩

/-- What one step does to the pipeline. -/
theorem pipe_step (h : Pipe s) (he : Effect cfg b s a s') (hlive : s'.Alive)
    (hok : ∀ order sends, a = .request order sends → s.phase = .request → s.chokedUs = false →
      belowLimit sends s.inflight (s.unrequestedIn order) = true) : Pipe s' := by
  cases he with
  | move hm =>
    refine ⟨h.card_le, h.le, fun hph => ?_⟩
    cases hm with
    | pickNew hs => exact h.room (Or.inl hs)
    | finish | listen | ignore | streamEnd | sendOk | sendErr | leave | release | choked
    | pickNone | pickPending => simp [SeedDownloader.goto] at hph
  | choke hs hreset => exact ⟨Nat.zero_le _, h.le, by simp⟩
  | unchoke hs hc => exact ⟨h.card_le, h.le, by simp⟩
  | orphan hs hmem hdl =>
    exact ⟨Nat.le_trans (Finset.card_le_card (Finset.erase_subset _ _)) h.card_le, h.le, by simp⟩
  | @block index begin block dl r inflight bytes hs hframed hmem hdl hrem hinf hsplice =>
    have hcard := Finset.card_erase_add_one hmem
    have hle := h.card_le
    have hle' := h.le
    rw [cfg.profile.sub_of_le (by omega)] at hinf
    obtain rfl := Option.some.inj hinf
    refine ⟨by dsimp only; omega, by dsimp only; omega, fun hph => ?_⟩
    dsimp only at hph
    split at hph <;> simp at hph
  | valid hs hset hdl hvalid => exact ⟨h.card_le, h.le, by simp⟩
  | invalid hs hset hdl hvalid => exact ⟨h.card_le, h.le, by simp⟩
  | @request order sends s₁ w hs hc horder hreq =>
    have hp := requestPending_piped (p := cfg.profile)
      (horder.symm.nodup Std.ExtTreeMap.nodup_keys) (h.piped sends) (hok order sends rfl hs hc)
    rw [hreq] at hp
    refine ⟨hp.card_le, hp.le, fun hph => ?_⟩
    -- at the limit nothing is picked
    by_contra hlt
    dsimp only [SeedDownloader.goto] at hph hlt
    rw [if_neg hlt] at hph
    simp at hph
  | @requestFailed order sends s₁ w hs hc horder hreq =>
    have hp := requestPending_piped (p := cfg.profile)
      (horder.symm.nodup Std.ExtTreeMap.nodup_keys) (h.piped sends) (hok order sends rfl hs hc)
    rw [hreq] at hp
    exact ⟨hp.card_le, hp.le, by simp [SeedDownloader.goto]⟩
  | @start index dl sends r hs hdl hreq =>
    have hp := requestBlocks_piped (p := cfg.profile) (k := index)
      (r := ⟨dl, s.inflight, s.pendingBlocks, ⟨sends, []⟩⟩) (h.piped sends)
      (belowLimit_singleton (h.room (Or.inr ⟨index, dl, hs⟩)) _)
    rw [hreq] at hp
    exact ⟨hp.1.card_le, hp.1.le, by simp [SeedDownloader.goto]⟩
  | @startFailed index dl sends r hs hreq =>
    have hp := requestBlocks_piped (p := cfg.profile) (k := index)
      (r := ⟨dl, s.inflight, s.pendingBlocks, ⟨sends, []⟩⟩) (h.piped sends)
      (belowLimit_singleton (h.room (Or.inr ⟨index, dl, hs⟩)) _)
    rw [hreq] at hp
    exact ⟨hp.card_le, hp.le, by simp⟩
  | panic hcause hs' => exact absurd hs' (hlive _)

/-- The counter neither overflows nor underflows. -/
theorem Pipe.not_overflow (h : Pipe s) {e : Panic} (hcause : Cause cfg b s a e)
    (hok : ∀ order sends, a = .request order sends → s.phase = .request → s.chokedUs = false →
      belowLimit sends s.inflight (s.unrequestedIn order) = true) : e ≠ .inflightOverflow := by
  cases hcause with
  | remaining | choke | remainingBlocks | splice | notImplemented | set | notPending | pick
  | alreadyPending => exact (nomatch ·)
  | inflight hs hmem hsub =>
    have hcard := Finset.card_pos.mpr ⟨_, hmem⟩
    have hle := h.card_le
    rw [cfg.profile.sub_of_le (by omega)] at hsub
    cases hsub
  | newPiece hs hb hnew => rcases newPiece_error hnew with rfl | rfl | rfl <;> exact (nomatch ·)
  | @request order sends e sw hs hc horder hreq =>
    have hp := requestPending_piped (p := cfg.profile)
      (horder.symm.nodup Std.ExtTreeMap.nodup_keys) (h.piped sends) (hok order sends rfl hs hc)
    rw [hreq] at hp
    exact hp
  | @start index dl sends e r hs hreq =>
    have hp := requestBlocks_piped (p := cfg.profile) (k := index)
      (r := ⟨dl, s.inflight, s.pendingBlocks, ⟨sends, []⟩⟩) (h.piped sends)
      (belowLimit_singleton (h.room (Or.inr ⟨index, dl, hs⟩)) _)
    rw [hreq] at hp
    exact hp

/-- The bound on outstanding requests, with the counter intact. -/
def Solo.Bounded (σ : Solo) : Prop :=
  (σ.seed.Alive → Pipe σ.seed) ∧ σ.seed.phase ≠ .panicked .inflightOverflow

/-- One step stays in the bound, if its calls start below the limit. -/
theorem bounded_step {σ σ' : Solo} {a : SoloAct} (h : σ.Bounded) (hok : RequestsBelowLimit σ a)
    (hstep : soloStep cfg σ a = some σ') : σ'.Bounded := by
  cases a with
  | other op =>
    obtain ⟨-, hs, -⟩ := soloStep_other hstep
    unfold Solo.Bounded
    rw [hs]
    exact h
  | own a =>
    obtain ⟨he, -⟩ := soloStep_own hstep
    have hp := h.1 he.alive
    have hok' : ∀ order sends, a = .request order sends → σ.seed.phase = .request →
        σ.seed.chokedUs = false →
        belowLimit sends σ.seed.inflight (σ.seed.unrequestedIn order) = true := by
      intro order sends heq hs hc
      subst heq
      exact hok hs hc
    exact ⟨fun hlive => pipe_step hp he hlive hok',
      fun hpanic => hp.not_overflow (he.cause hpanic) hok' rfl⟩

theorem bounded_new (cfg : Config) : (Solo.new cfg).Bounded :=
  ⟨fun _ => ⟨Nat.le_refl 0, Nat.zero_le _, by simp [Solo.new, SeedDownloader.new]⟩, (nomatch ·)⟩

/-- The counter of a batch of requests grows by the number of messages sent. -/
theorem Pipe.request_sent (h : Pipe s) {order : List Nat} {sends : Option Nat}
    (horder : order.Perm s.pendingPieces.keys)
    (hok : s.chokedUs = false →
      belowLimit sends s.inflight (s.unrequestedIn order) = true)
    (hlive : (s.requestPieces cfg b order sends).seed.Alive) :
    (s.requestPieces cfg b order sends).seed.inflight =
      s.inflight + (s.requestPieces cfg b order sends).sent.length := by
  unfold SeedDownloader.requestPieces at hlive ⊢
  split
  next => rfl
  next hc =>
    have hp := requestPending_piped (p := cfg.profile)
      (horder.symm.nodup Std.ExtTreeMap.nodup_keys) (h.piped sends)
      (hok (Bool.eq_false_iff.mpr hc))
    rw [if_neg hc] at hlive
    cases hreq : requestPending cfg.profile order s ⟨sends, []⟩ with
    | ok sw => rw [hreq] at hp; exact hp.sent
    | sendFailed sw => rw [hreq] at hp; exact hp.sent
    | panicked e sw => rw [hreq] at hlive; exact absurd rfl (hlive e)

/-- The counter grows by the requests sent for a new piece. -/
theorem Pipe.start_sent (h : Pipe s) {index : Nat} {dl : PieceDownload} {sends : Option Nat}
    (hs : s.phase = .start index dl) (hlive : (s.startPiece cfg b index dl sends).seed.Alive) :
    (s.startPiece cfg b index dl sends).seed.inflight =
      s.inflight + (s.startPiece cfg b index dl sends).sent.length := by
  have hp := requestBlocks_piped (p := cfg.profile) (k := index)
    (r := ⟨dl, s.inflight, s.pendingBlocks, ⟨sends, []⟩⟩) (h.piped sends)
    (belowLimit_singleton (h.room (Or.inr ⟨index, dl, hs⟩)) _)
  unfold SeedDownloader.startPiece at hlive ⊢
  cases hreq : requestBlocks cfg.profile index ⟨dl, s.inflight, s.pendingBlocks, ⟨sends, []⟩⟩ with
  | ok r =>
    rw [hreq] at hp hlive
    dsimp only at hlive ⊢
    split
    next hdl => rw [if_pos hdl] at hlive; exact absurd rfl (hlive .pieceAlreadyPending)
    next => exact hp.1.sent
  | sendFailed r => rw [hreq] at hp; exact hp.sent
  | panicked e r => rw [hreq] at hlive; exact absurd rfl (hlive e)

/-- Inside the bound no arithmetic on the counter wraps. -/
theorem unwrapped_of_bounded {σ : Solo} {a : SoloAct} (h : σ.Bounded)
    (hok : RequestsBelowLimit σ a) : Unwrapped cfg σ a := by
  unfold Unwrapped
  split
  next index begin block =>
    intro hs hmem
    have hcard := Finset.card_pos.mpr ⟨_, hmem⟩
    have hle := (h.1 (by unfold SeedDownloader.Alive; rw [hs]; exact fun _ => (nomatch ·))).card_le
    omega
  next order sends =>
    intro out hout hlive
    obtain ⟨he, -⟩ := effect_of_step hout
    simp only [seedStep] at hout
    split at hout
    next hs =>
      split at hout
      next horder =>
        obtain rfl := Option.some.inj hout
        exact (h.1 he.alive).request_sent horder (hok hs) hlive
      next => cases hout
    next => cases hout
  next sends =>
    intro out hout hlive
    obtain ⟨he, -⟩ := effect_of_step hout
    simp only [seedStep] at hout
    split at hout
    next index dl hs =>
      obtain rfl := Option.some.inj hout
      exact (h.1 he.alive).start_sent hs hlive
    next => cases hout
  next => exact trivial

/-- **The request pipeline.** In a run in which no call of `request_blocks`
starts with the counter at the limit, at most 5 requests are outstanding in
every state, and the counter never wraps. -/
theorem pipeline_bounded (cfg : Config) (acts : List SoloAct)
    (hok : AllSteps (soloStep cfg) RequestsBelowLimit (Solo.new cfg) acts) :
    AllStates (soloStep cfg)
      (fun σ => (σ.seed.Alive → σ.seed.pendingBlocks.card ≤ maxInflightPerPeer) ∧
        σ.seed.phase ≠ .panicked .inflightOverflow) (Solo.new cfg) acts ∧
    AllSteps (soloStep cfg) (Unwrapped cfg) (Solo.new cfg) acts := by
  have hstep : ∀ σ a σ', Solo.Bounded σ → RequestsBelowLimit σ a →
      soloStep cfg σ a = some σ' → σ'.Bounded := fun _ _ _ h hok hs => bounded_step h hok hs
  refine ⟨?_, allSteps_of_invariant hstep (fun _ _ => unwrapped_of_bounded) (bounded_new cfg) hok⟩
  refine (allStates_of_invariant hstep (bounded_new cfg) hok).mono fun σ h => ⟨fun hlive => ?_, h.2⟩
  exact Nat.le_trans (h.1 hlive).card_le (h.1 hlive).le

/-- A torrent of one piece of ten blocks. -/
def tenBlocks : Config where
  profile := .release
  torrent :=
    { info :=
        { name := "ten"
          pieceLength := 10 * blockSize
          pieces := [Vector.replicate 20 0]
          downloadType := .singleFile (10 * blockSize) }
      length := 10 * blockSize
      len_eq := rfl
      length_lt := by decide
      pieceLength_pos := by decide
      pieceLength_lt := by decide }
  sha1 := fun _ => Vector.replicate 20 0

/-- The requests of an unchoked task, as far as its first piece. -/
def unchokedRun : List SoloAct :=
  [.own .check, .own (.deliver .unchoke), .own (.request [] none), .own .pick, .own (.start none)]

/-- After a choke the counter still says 5, so the next request of the piece
passes the limit and asks for all ten blocks. -/
theorem choke_overfills :
    ¬ AllStates (soloStep tenBlocks)
      (fun σ => σ.seed.Alive → σ.seed.pendingBlocks.card ≤ maxInflightPerPeer) (Solo.new tenBlocks)
      (unchokedRun ++ [.own .check, .own (.deliver .choke), .own .check,
        .own (.deliver .unchoke), .own (.request [0] none)]) := by
  decide +kernel

/-- A torrent of a piece of ten blocks and a piece of one byte. -/
def tenBlocksAndByte : Config where
  profile := .release
  torrent :=
    { info :=
        { name := "eleven"
          pieceLength := 10 * blockSize
          pieces := List.replicate 2 (Vector.replicate 20 0)
          downloadType := .singleFile (10 * blockSize + 1) }
      length := 10 * blockSize + 1
      len_eq := rfl
      length_lt := by decide
      pieceLength_pos := by decide
      pieceLength_lt := by decide }
  sha1 := fun _ => Vector.replicate 20 0

/-- The byte is picked first, and requested twice because of a choke. Three blocks of
the other piece fill the pipeline, and when the byte has arrived a fourth does. -/
def refillRun : List SoloAct :=
  [.own .check, .own (.deliver .unchoke), .other .pick, .own (.request [] none), .own .pick,
    .own (.start none), .own .check, .own (.deliver .choke), .own .check, .own (.deliver .unchoke),
    .own (.request [1] none), .own .pick, .own (.start none), .own .check,
    .own (.deliver (.piece 1 0 [0])), .own .setPiece, .own .sendOk, .own .release,
    .own (.request [0] none)]

/-- A run in which a partly requested piece is visited below the limit. -/
theorem pipeline_bounded_refill :
    AllStates (soloStep tenBlocksAndByte)
      (fun σ => (σ.seed.Alive → σ.seed.pendingBlocks.card ≤ maxInflightPerPeer) ∧
        σ.seed.phase ≠ .panicked .inflightOverflow) (Solo.new tenBlocksAndByte) refillRun :=
  (pipeline_bounded tenBlocksAndByte refillRun (by decide +kernel)).1

end Pipe

end BitTorrent
