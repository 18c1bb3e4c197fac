import BitTorrent.Download.Assembly
import BitTorrent.Download.Pipeline

/-!
# What a peer can do to a downloader

A message from the peer is handled in any state the task can be in. `Handled`
lists what it takes for the handling not to panic, and each clause is one place
of the code: the two messages that are `todo!()`, the advance loop of `set`, the
assertion that a block is requested once, and the `+= 1` on the counter of a
build with overflow checks. All other panics are excluded by what holds in every
run (`handled_never_panics`).

Every panic of a step has a `Cause`, and there is one case for each of them. The
arithmetic of the pieces is settled by `Known`, the counters of blocks and the
assertions about them by `Booked`. The counter `inflight` is an `u8`. It is never
less than what is outstanding, in a build that checks it (`Metered`), and the
requests of a step keep it below 256 when `belowByte` says so of the state before.

That the message was decoded at all is not the matter here. What the codec does with
the bytes of a peer is in `Download.Codec`.
-/

namespace BitTorrent

/-- The handler has code for the message. -/
def Message.Implemented : Message → Prop
  | .request .. | .cancel .. => False
  | _ => True

instance : ∀ msg : Message, Decidable msg.Implemented
  | .request .. | .cancel .. => isFalse id
  | .keepAlive | .choke | .unchoke | .interested | .notInterested | .have _ | .bitfield _
  | .piece .. => isTrue trivial

/-- The number of blocks a call of `request_blocks` asks for when `u` are left in
the piece and no send fails: the test for the limit is one for equality. -/
def askedFor (c u : Nat) : Nat :=
  if c < maxInflightPerPeer then min u (maxInflightPerPeer - c) else u

/-- The counter stays below `2 ^ 8` while pieces with `us` blocks to request are
visited, when `sends` more messages can be sent and the counter is `c`. -/
def belowByte : Option Nat → Nat → List Nat → Bool
  | _, _, [] => true
  | none, c, u :: us => c + askedFor c u < 2 ^ 8 && belowByte none (c + askedFor c u) us
  | some m, c, u :: us =>
    c + min m (askedFor c u) < 2 ^ 8 &&
      (m < askedFor c u || belowByte (some (m - askedFor c u)) (c + askedFor c u) us)

/-- The step meets none of the defects that panic. -/
def Handled (cfg : Config) (σ : Solo) : SoloAct → Prop
  | .own (.deliver msg) => σ.seed.phase = .select → msg.Implemented
  | .own .setPiece =>
    ∀ e ∈ σ.seed.completing, σ.bitfield.Owns e.1 ∨ ¬ σ.bitfield.Closes e.1
  | .own (.request order sends) => cfg.profile = .dev → σ.seed.phase = .request →
    σ.seed.chokedUs = false →
      belowByte sends σ.seed.inflight (σ.seed.unrequestedIn order) = true
  | .own (.start _) => σ.seed.Fresh
  | _ => True

instance (cfg : Config) (σ : Solo) : ∀ a, Decidable (Handled cfg σ a)
  | .own (.deliver _) => inferInstanceAs (Decidable (_ = _ → _))
  | .own .setPiece => inferInstanceAs (Decidable (∀ e ∈ σ.seed.completing, _ ∨ ¬ _))
  | .own (.request ..) => inferInstanceAs (Decidable (_ = _ → _ → _ → _ = true))
  | .own (.start _) => inferInstanceAs (Decidable σ.seed.Fresh)
  | .own .check | .own (.keepAlive _) | .own .streamEnd | .own .streamError | .own .sendOk
  | .own .sendErr | .own .release | .own .pick | .other _ => isTrue trivial

/-- The counter counts at least what is outstanding, in a build that checks it,
and a new piece is started below the limit. -/
structure Metered (p : Profile) (s : SeedDownloader) : Prop where
  card_le : p = .dev → s.pendingBlocks.card ≤ s.inflight
  room : s.phase = .pick ∨ (∃ k dl, s.phase = .start k dl) → s.inflight < maxInflightPerPeer

section Safety

variable {cfg : Config} {b : Bitfield} {s s' : SeedDownloader} {a : SeedAct}

/-! ## The counter in a batch of requests -/

/-- One block after another is asked for, up to the test of the counter. -/
theorem askedFor_succ {c u : Nat} :
    askedFor c (u + 1) = if c + 1 = maxInflightPerPeer then 1 else askedFor (c + 1) u + 1 := by
  have hmax : maxInflightPerPeer = 5 := rfl
  unfold askedFor
  grind

/-- A request that is sent leaves the counter below `2 ^ 8`. Unless it reaches
the limit, the call goes on with the rest of the piece. -/
theorem belowByte_push {w w' : Wire} {msg : Message} {c u : Nat} {us : List Nat}
    (h : belowByte w.sends c ((u + 1) :: us) = true) (hsend : w.send msg = some w') :
    c + 1 < 2 ^ 8 ∧
    (c + 1 = maxInflightPerPeer → belowByte w'.sends (c + 1) us = true) ∧
    (c + 1 ≠ maxInflightPerPeer → belowByte w'.sends (c + 1) (u :: us) = true) := by
  obtain ⟨-, hsends⟩ := Wire.send_cases hsend
  rcases hsends with ⟨h₁, h₂⟩ | ⟨m, h₁, h₂⟩
  · rw [h₁] at h
    rw [h₂]
    obtain ⟨hlt, hrest⟩ := Bool.and_eq_true_iff.mp h
    have hlt := of_decide_eq_true hlt
    rw [askedFor_succ] at hlt hrest
    refine ⟨by grind, fun heq => ?_, fun hne => ?_⟩
    · rw [if_pos heq] at hrest
      exact hrest
    · rw [if_neg hne, ← Nat.add_assoc, Nat.add_right_comm] at hlt hrest
      exact Bool.and_eq_true_iff.mpr ⟨decide_eq_true hlt, hrest⟩
  · rw [h₁] at h
    rw [h₂]
    obtain ⟨hlt, hrest⟩ := Bool.and_eq_true_iff.mp h
    have hlt := of_decide_eq_true hlt
    have hrest := Bool.or_eq_true_iff.mp hrest
    rw [askedFor_succ] at hlt hrest
    refine ⟨by grind, fun heq => ?_, fun hne => ?_⟩
    · rw [if_pos heq] at hrest
      exact hrest.resolve_left fun h0 => by simp at h0
    · rw [if_neg hne] at hlt hrest
      rw [Nat.add_sub_add_right, ← Nat.add_assoc, Nat.add_right_comm] at hrest
      refine Bool.and_eq_true_iff.mpr ⟨decide_eq_true (by omega), Bool.or_eq_true_iff.mpr ?_⟩
      exact hrest.imp (fun h0 => decide_eq_true (by have := of_decide_eq_true h0; omega)) id

/-- With a message to send and a block to request the counter can be increased. -/
theorem belowByte_lt {sends : Option Nat} {c u : Nat} {us : List Nat}
    (h : belowByte sends c ((u + 1) :: us) = true) (hs : sends ≠ some 0) : c + 1 < 2 ^ 8 := by
  have hpos : 0 < askedFor c (u + 1) := by
    rw [askedFor_succ]
    split <;> omega
  cases sends with
  | none =>
    have hlt := of_decide_eq_true (Bool.and_eq_true_iff.mp h).1
    omega
  | some m =>
    have hlt := of_decide_eq_true (Bool.and_eq_true_iff.mp h).1
    have hm : m ≠ 0 := fun h0 => hs (h0 ▸ rfl)
    omega

/-- A piece with nothing to request adds nothing. -/
theorem belowByte_zero {sends : Option Nat} {c : Nat} {us : List Nat}
    (h : belowByte sends c (0 :: us) = true) : belowByte sends c us = true := by
  have h0 : askedFor c 0 = 0 := by unfold askedFor; split <;> omega
  cases sends with
  | none =>
    have hrest := (Bool.and_eq_true_iff.mp h).2
    rw [h0] at hrest
    exact hrest
  | some m =>
    have hrest := (Bool.and_eq_true_iff.mp h).2
    rw [h0] at hrest
    exact (Bool.or_eq_true_iff.mp hrest).resolve_left fun hlt => by simp at hlt

/-! ## The two loops -/

/-- A call of `request_blocks` counts what it requests, and does not carry the
counter to 256. -/
theorem requestBlocks_metered {p : Profile} {k : Nat} {r : Requests} {us : List Nat}
    (hr : p = .dev → r.blocks.card ≤ r.inflight ∧
      belowByte r.wire.sends r.inflight (r.dl.unrequested :: us) = true) :
    (requestBlocks p k r).Sat
      (fun r' => p = .dev → r'.blocks.card ≤ r'.inflight ∧
        belowByte r'.wire.sends r'.inflight us = true)
      (fun r' => p = .dev → r'.blocks.card ≤ r'.inflight) (fun e => e ≠ .inflightOverflow) := by
  have hrule := requestBlocks_rule (p := p) (k := k)
    (P := fun r => p = .dev → r.blocks.card ≤ r.inflight ∧
      belowByte r.wire.sends r.inflight (r.dl.unrequested :: us) = true)
    (Q := fun r => p = .dev → r.blocks.card ≤ r.inflight ∧
      (r.inflight = maxInflightPerPeer → belowByte r.wire.sends r.inflight us = true) ∧
      (r.inflight ≠ maxInflightPerPeer →
        belowByte r.wire.sends r.inflight (r.dl.unrequested :: us) = true))
    ?push (fun r hr hne hp => ⟨(hr hp).1, (hr hp).2.2 hne⟩) ?done r hr
  case push =>
    intro r inflight wire hr hlt hnew hadd hsend hp
    obtain ⟨hcard, hbelow⟩ := hr hp
    rw [← SeedDownloader.unrequested_advance hlt k] at hbelow
    obtain ⟨hbyte, hrest⟩ := belowByte_push hbelow hsend
    rw [p.add_of_lt hbyte] at hadd
    obtain rfl := Option.some.inj hadd
    refine ⟨?_, hrest⟩
    show (insert _ r.blocks).card ≤ r.inflight + 1
    rw [Finset.card_insert_of_notMem hnew]
    exact Nat.succ_le_succ hcard
  case done =>
    intro r hr hle hp
    obtain ⟨hcard, hbelow⟩ := hr hp
    refine ⟨hcard, fun _ => ?_, fun _ => hbelow⟩
    rw [PieceDownload.unrequested_of_le hle] at hbelow
    exact belowByte_zero hbelow
  refine hrule.mono (fun r' hr' hp => ⟨(hr'.1 hp).1, ?_⟩) (fun r' hr' hp => (hr'.1 hp).1)
    (fun e he => ?_)
  · by_cases hfull : r'.inflight = maxInflightPerPeer
    · exact (hr'.1 hp).2.1 hfull
    · have hbelow := (hr'.1 hp).2.2 hfull
      rw [PieceDownload.unrequested_of_le (hr'.2.resolve_right hfull)] at hbelow
      exact belowByte_zero hbelow
  · obtain ⟨r', hr', ⟨hlt, hsends⟩, he⟩ := he
    rcases he with ⟨rfl, -⟩ | ⟨rfl, hadd⟩
    · exact (nomatch ·)
    · -- only a build with overflow checks stops at the counter
      cases p with
      | dev =>
        have hbelow := (hr' rfl).2
        rw [← SeedDownloader.unrequested_advance hlt k] at hbelow
        rw [Profile.add_of_lt _ (belowByte_lt hbelow hsends)] at hadd
        cases hadd
      | release =>
        unfold Profile.add at hadd
        split at hadd <;> cases hadd

/-- The loop over the pending pieces counts what it requests, and does not carry the
counter to 256. -/
theorem requestPending_metered {p : Profile} {w : Wire} {order : List Nat} (hnodup : order.Nodup)
    (h : p = .dev → s.pendingBlocks.card ≤ s.inflight ∧
      belowByte w.sends s.inflight (s.unrequestedIn order) = true) :
    (requestPending p order s w).Sat (fun sw => p = .dev → sw.1.pendingBlocks.card ≤ sw.1.inflight)
      (fun sw => p = .dev → sw.1.pendingBlocks.card ≤ sw.1.inflight)
      (fun e => e ≠ .inflightOverflow) := by
  have hrule := requestPending_rule (p := p)
    (I := fun order s w => order.Nodup ∧ (p = .dev → s.pendingBlocks.card ≤ s.inflight ∧
      belowByte w.sends s.inflight (s.unrequestedIn order) = true))
    (F := fun s _ => p = .dev → s.pendingBlocks.card ≤ s.inflight)
    (E := fun e => e ≠ .inflightOverflow)
    ?skip (fun _ _ _ _ _ _ _ _ => ⟨fun _ => (nomatch ·), fun _ => (nomatch ·)⟩) ?piece
    order s w ⟨hnodup, h⟩
  case skip =>
    intro k order s w hq hfull
    obtain ⟨hnodup, h⟩ := hq
    refine ⟨(List.nodup_cons.mp hnodup).2, fun hp => ⟨(h hp).1, belowByte_zero ?_⟩⟩
    have hbelow := (h hp).2
    rw [unrequestedIn_skip hfull] at hbelow
    exact hbelow
  case piece =>
    intro k order s w dl hq hdl _
    obtain ⟨hnodup, h⟩ := hq
    obtain ⟨hk, hnodup⟩ := List.nodup_cons.mp hnodup
    have hbelow : p = .dev → s.pendingBlocks.card ≤ s.inflight ∧
        belowByte w.sends s.inflight (dl.unrequested :: s.unrequestedIn order) = true := by
      intro hp
      have hbelow := (h hp).2
      rw [unrequestedIn_cons, hdl] at hbelow
      exact ⟨(h hp).1, hbelow⟩
    have hr := requestBlocks_metered (k := k) (r := ⟨dl, s.inflight, s.pendingBlocks, w⟩) hbelow
    refine hr.mono (fun r hr => ⟨hnodup, fun hp => ⟨(hr hp).1, ?_⟩⟩) (fun r hr hp => hr hp)
      (fun _ he => he)
    rw [unrequestedIn_apply hk]
    exact (hr hp).2
  exact hrule.mono (fun _ h hp => (h.2 hp).1) (fun _ h => h) (fun _ he => he)

/-- The panics of a batch of requests: an assertion about the bookkeeping, or the
counter. -/
theorem requestBlocks_panics (p : Profile) (k : Nat) (r : Requests) :
    (requestBlocks p k r).Sat (fun _ => True) (fun _ => True)
      (fun e => e.Bookkeeping ∨ e = .inflightOverflow) := by
  refine (requestBlocks_rule (p := p) (k := k) (P := fun _ => True) (Q := fun _ => True)
    (fun _ _ _ _ _ _ _ _ => trivial) (fun _ _ _ => trivial) (fun _ _ _ => trivial) r trivial).mono
    (fun _ _ => trivial) (fun _ _ => trivial) (fun e he => ?_)
  obtain ⟨r', -, -, he⟩ := he
  rcases he with ⟨rfl, -⟩ | ⟨rfl, -⟩
  · exact Or.inl trivial
  · exact Or.inr rfl

/-- The loop over the pending pieces has no other panics than these. -/
theorem requestPending_panics (p : Profile) (order : List Nat) (s : SeedDownloader) (w : Wire) :
    (requestPending p order s w).Sat (fun _ => True) (fun _ => True)
      (fun e => e.Bookkeeping ∨ e = .inflightOverflow) :=
  requestPending_rule (I := fun _ _ _ => True) (F := fun _ _ => True)
    (fun _ _ _ _ _ _ => trivial)
    (fun _ _ _ _ _ _ _ _ => ⟨fun _ => Or.inl trivial, fun _ => Or.inl trivial⟩)
    (fun k _ _ _ _ _ _ _ => requestBlocks_panics p k _) order s w trivial

/-! ## Steps -/

/-- The requests of a new piece start below the limit. -/
theorem Metered.start (h : Metered cfg.profile s) {index : Nat} {dl : PieceDownload}
    (hs : s.phase = .start index dl) (sends : Option Nat) :
    (requestBlocks cfg.profile index ⟨dl, s.inflight, s.pendingBlocks, ⟨sends, []⟩⟩).Sat
      (fun r => cfg.profile = .dev → r.blocks.card ≤ r.inflight)
      (fun r => cfg.profile = .dev → r.blocks.card ≤ r.inflight)
        (fun e => e ≠ .inflightOverflow) := by
  have hmax : maxInflightPerPeer = 5 := rfl
  have hroom := h.room (Or.inr ⟨index, dl, hs⟩)
  have hbelow : belowByte sends s.inflight [dl.unrequested] = true := by
    have hasked : s.inflight + askedFor s.inflight dl.unrequested ≤ maxInflightPerPeer := by
      unfold askedFor
      rw [if_pos hroom]
      omega
    cases sends with
    | none => exact Bool.and_eq_true_iff.mpr ⟨decide_eq_true (by omega), rfl⟩
    | some m =>
      exact Bool.and_eq_true_iff.mpr
        ⟨decide_eq_true (by omega), Bool.or_eq_true_iff.mpr (Or.inr rfl)⟩
  exact (requestBlocks_metered fun hp => ⟨h.card_le hp, hbelow⟩).mono
    (fun _ hr hp => (hr hp).1) (fun _ hr => hr) (fun _ he => he)

theorem Metered.request (h : Metered cfg.profile s) {order : List Nat} {sends : Option Nat}
    (horder : order.Perm s.pendingPieces.keys)
    (hok : cfg.profile = .dev → belowByte sends s.inflight (s.unrequestedIn order) = true) :
    (requestPending cfg.profile order s ⟨sends, []⟩).Sat
      (fun sw => cfg.profile = .dev → sw.1.pendingBlocks.card ≤ sw.1.inflight)
      (fun sw => cfg.profile = .dev → sw.1.pendingBlocks.card ≤ sw.1.inflight)
      (fun e => e ≠ .inflightOverflow) :=
  requestPending_metered (horder.symm.nodup Std.ExtTreeMap.nodup_keys)
    fun hp => ⟨h.card_le hp, hok hp⟩

/-- One step keeps the counter, if its requests stay below 256. -/
theorem metered_step (h : Metered cfg.profile s) (he : Effect cfg b s a s') (hlive : s'.Alive)
    (hok : ∀ order sends, a = .request order sends → cfg.profile = .dev → s.phase = .request →
      s.chokedUs = false → belowByte sends s.inflight (s.unrequestedIn order) = true) :
    Metered cfg.profile s' := by
  cases he with
  | move hm =>
    refine ⟨h.card_le, fun hph => ?_⟩
    cases hm with
    | pickNew hs => exact h.room (Or.inl hs)
    | finish | listen | ignore | streamEnd | sendOk | sendErr | leave | release | choked | pickNone
    | pickPending => simp [SeedDownloader.goto] at hph
  | choke hs hreset => exact ⟨fun _ => Nat.zero_le _, by simp⟩
  | unchoke hs hc => exact ⟨h.card_le, by simp⟩
  | orphan hs hmem hdl =>
    exact ⟨fun hp => Nat.le_trans (Finset.card_le_card (Finset.erase_subset _ _)) (h.card_le hp),
      by simp⟩
  | @block index begin block dl r inflight bytes hs hframed hmem hdl hrem hinf hsplice =>
    refine ⟨fun hp => ?_, fun hph => ?_⟩
    · have hcard := Finset.card_erase_add_one hmem
      have hle := h.card_le hp
      rw [cfg.profile.sub_of_le (by omega)] at hinf
      obtain rfl := Option.some.inj hinf
      dsimp only
      omega
    · dsimp only at hph
      split at hph <;> simp at hph
  | valid hs hset hdl hvalid => exact ⟨h.card_le, by simp⟩
  | invalid hs hset hdl hvalid => exact ⟨h.card_le, by simp⟩
  | @request order sends s₁ w hs hc horder hreq =>
    have hp := h.request horder fun hdev => hok order sends rfl hdev hs hc
    rw [hreq] at hp
    refine ⟨hp, fun hph => ?_⟩
    by_contra hlt
    dsimp only [SeedDownloader.goto] at hph hlt
    rw [if_neg hlt] at hph
    simp at hph
  | @requestFailed order sends s₁ w hs hc horder hreq =>
    have hp := h.request horder fun hdev => hok order sends rfl hdev hs hc
    rw [hreq] at hp
    exact ⟨hp, by simp [SeedDownloader.goto]⟩
  | @start index dl sends r hs hdl hreq =>
    have hp := h.start hs sends
    rw [hreq] at hp
    exact ⟨hp, by simp [SeedDownloader.goto]⟩
  | @startFailed index dl sends r hs hreq =>
    have hp := h.start hs sends
    rw [hreq] at hp
    exact ⟨hp, by simp⟩
  | panic hcause hs' => exact absurd hs' (hlive _)

/-- A piece that is picked can be started. -/
theorem newPiece_ok (hsmall : SmallPieces cfg)
    (hpieces : cfg.torrent.info.pieces.length = cfg.torrent.numPieces) {k : Nat}
    (hk : k < cfg.torrent.numPieces) (e : Panic) : SeedDownloader.newPiece cfg k ≠ .error e := by
  have hB : blockSize = 16384 := rfl
  have hlen : cfg.torrent.pieceLen k + blockSize < 2 ^ 32 := by
    have hlt := hsmall k hk
    unfold blocksIn at hlt
    rw [hB] at hlt ⊢
    omega
  unfold SeedDownloader.newPiece
  rw [cfg.torrent.getPieceLength_eq hk]
  dsimp only
  rw [numBlocks_of_lt _ hlen, List.getElem?_eq_getElem (by omega)]
  exact (nomatch ·)

/-- No cause of a panic is left in a step that is handled. -/
theorem Booked.no_cause {σ : Solo} (hb : Booked cfg σ.seed) (hinv : σ.Inv cfg)
    (hm : Metered cfg.profile σ.seed) (hsmall : SmallPieces cfg)
    (hpieces : cfg.torrent.info.pieces.length = cfg.torrent.numPieces) (hfresh : σ.seed.Fresh)
    (hok : Handled cfg σ (.own a)) (e : Panic) : ¬ Cause cfg σ.bitfield σ.seed a e := by
  have hn := cfg.torrent.numPieces_lt
  intro hcause
  have hbook := hb.not_bookkeeping hsmall hfresh hcause
  cases hcause with
  | remaining hs hrem =>
    rw [hinv.bitfield.remaining_eq hn] at hrem
    cases hrem
  | choke hs hreset =>
    obtain ⟨k, dl, hdl, hnum⟩ := resetPieces_eq_none hreset
    have hcounted := (hb.piece k dl hdl).counted
    rw [hnum] at hcounted
    cases hcounted
  | remainingBlocks | splice | notPending | alreadyPending => exact hbook trivial
  | inflight hs hmem hsub =>
    have hcard := Finset.card_pos.mpr ⟨_, hmem⟩
    cases hprofile : cfg.profile with
    | dev =>
      have hle := hm.card_le hprofile
      rw [cfg.profile.sub_of_le (by omega)] at hsub
      cases hsub
    | release =>
      rw [hprofile] at hsub
      unfold Profile.sub at hsub
      split at hsub <;> cases hsub
  | notImplemented hs hmsg =>
    have himpl := hok hs
    rcases hmsg with ⟨i, j, k, rfl⟩ | ⟨i, j, k, rfl⟩ <;> exact himpl
  | @set index hs hset =>
    have hph := hb.phase
    rw [hs] at hph
    obtain ⟨dl, hdl⟩ := hph
    rw [Bitfield.set_panics_iff_closes hinv.bitfield hn (hb.piece index dl hdl).lt] at hset
    have hopen := hok (index, dl) (completing_eq hs hdl)
    exact hopen.elim hset.1 fun hc => hc hset.2
  | @request order sends e sw hs hc horder hreq =>
    have hmeter := hm.request horder fun hdev => hok hdev hs hc
    have hkinds := requestPending_panics cfg.profile order σ.seed ⟨sends, []⟩
    rw [hreq] at hmeter hkinds
    exact hkinds.elim hbook hmeter
  | pick hs hpick => exact Bitfield.not_panics_pick hinv.bitfield hn hpick
  | @newPiece index e hs hpick hnew =>
    rcases Bitfield.pickPiece_spec hinv.bitfield hn with ⟨-, heq⟩ | ⟨m, hlt, -, -, heq⟩
    · rw [heq] at hpick
      cases hpick
    · rw [heq] at hpick
      obtain rfl := Option.some.inj (Exit.returned.inj hpick)
      exact newPiece_ok hsmall hpieces hlt e hnew
  | @start index dl sends e r hs hreq =>
    have hmeter := hm.start hs sends
    have hkinds := requestBlocks_panics cfg.profile index
      ⟨dl, σ.seed.inflight, σ.seed.pendingBlocks, ⟨sends, []⟩⟩
    rw [hreq] at hmeter hkinds
    exact hkinds.elim hbook hmeter

/-! ## Runs -/

/-- What handled steps keep. -/
structure Solo.Safe (cfg : Config) (σ : Solo) : Prop extends Solo.Inv cfg σ where
  booked : Booked cfg σ.seed
  metered : Metered cfg.profile σ.seed
  alive : σ.seed.Alive

theorem safe_new (cfg : Config) : (Solo.new cfg).Safe cfg where
  toInv := soloInv_new cfg
  booked := booked_new cfg
  metered := ⟨fun _ => Nat.zero_le _, by simp [Solo.new, SeedDownloader.new]⟩
  alive := fun e => (nomatch ·)

/-- One step that meets none of the defects is safe. -/
theorem safe_step (hsmall : SmallPieces cfg)
    (hpieces : cfg.torrent.info.pieces.length = cfg.torrent.numPieces) {σ σ' : Solo} {a : SoloAct}
    (h : σ.Safe cfg) (hok : Handled cfg σ a) (hstep : soloStep cfg σ a = some σ') :
    σ'.Safe cfg := by
  cases a with
  | other op =>
    obtain ⟨-, hs, -⟩ := soloStep_other hstep
    exact ⟨soloInv_step h.toInv hstep, by rw [hs]; exact h.booked, by rw [hs]; exact h.metered,
      by rw [hs]; exact h.alive⟩
  | own a =>
    obtain ⟨he, -⟩ := soloStep_own hstep
    have hfresh : σ.seed.Fresh := fun k dl hs => by
      obtain ⟨sends, rfl⟩ := he.start_of_phase hs
      exact hok k dl hs
    have hlive : σ'.seed.Alive := fun e he' =>
      h.booked.no_cause h.toInv h.metered hsmall hpieces hfresh hok e (he.cause he')
    refine ⟨soloInv_step h.toInv hstep, booked_step h.bitfield h.booked he hlive hsmall hfresh,
      metered_step h.metered he hlive ?_, hlive⟩
    intro order sends heq hdev hs hc
    subst heq
    exact hok hdev hs hc

/-- **No message crashes the downloader** in a run whose steps are all handled:
whatever the peer sends and whatever the other tasks do, the task never panics. -/
theorem handled_never_panics (cfg : Config) (acts : List SoloAct) (hsmall : SmallPieces cfg)
    (hpieces : cfg.torrent.info.pieces.length = cfg.torrent.numPieces)
    (hok : AllSteps (soloStep cfg) (Handled cfg) (Solo.new cfg) acts) :
    AllStates (soloStep cfg) (fun σ => σ.seed.Alive) (Solo.new cfg) acts :=
  (allStates_of_invariant (P := Solo.Safe cfg)
    (fun _ _ _ h ok hs => safe_step hsmall hpieces h ok hs) (safe_new cfg) hok).mono
    fun _ h => h.alive

/-- A `Request` from the peer reaches a `todo!()`. -/
theorem request_message_panics :
    SmallPieces (twoPieces .dev) ∧
    (twoPieces .dev).torrent.info.pieces.length = (twoPieces .dev).torrent.numPieces ∧
    ¬ AllStates (soloStep (twoPieces .dev)) (fun σ => σ.seed.Alive) (Solo.new (twoPieces .dev))
      [.own .check, .own (.deliver (.request 0 0 1))] := by
  decide +kernel

theorem handled_never_panics_two :
    AllStates (soloStep (twoPieces .dev)) (fun σ => σ.seed.Alive) (Solo.new (twoPieces .dev))
      [.own .check, .own (.deliver .unchoke), .own (.request [] none), .own .pick,
        .own (.start none), .own .check, .own (.deliver (.piece 0 0 [1])), .own .setPiece,
        .own .sendOk, .own .release, .own (.request [] none)] :=
  handled_never_panics (twoPieces .dev) _ (by decide +kernel) (by decide) (by decide +kernel)

end Safety

end BitTorrent
