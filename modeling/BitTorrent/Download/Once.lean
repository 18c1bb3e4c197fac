import BitTorrent.Download.Complete
import BitTorrent.Download.Delivery
import BitTorrent.Download.Repeat
import Mathlib.Data.Finset.Prod

/-!
# Every downloader sends a piece once

A downloader validates a piece under the lock that marks it as owned, and a
piece that is owned is not picked again. So a downloader never sends the same
piece twice, however often its peer chokes it, and it says goodbye once
(`published_once`).

This bounds the work of the receive loop. There are at most `MAX_SEEDS`
downloaders, and each of them sends at most `num_pieces + 1` messages, so the
loop goes round at most `MAX_SEEDS * (num_pieces + 1)` times, whatever the peers
do (`received_bounded`). Who sent a message is known from the order in which the
messages were enqueued.

`Posted` is what every run keeps: a piece that was published is owned, and its
downloader does not have it any more. To have it again it would have to pick it
(`Effect.holds`), and the picker returns missing pieces only. Two downloaders may
still send the same piece, when both had it pending.

The bound counts names: a message is named by its sender and its piece, or the
goodbye, no name comes twice, and there are only so many of them (`card_keys_le`).
-/

namespace BitTorrent

open Mailbox (Event Balanced log arrivals ofSender ofSender_map ofSender_nodup mem_ofSender)

/-- The piece of a message; a `Disconnect` has none. -/
def DownloaderMsg.pieceIndex : DownloaderMsg → Option Nat
  | .piece index _ _ => some index
  | .disconnect _ => none

/-- What was published in the history `h`, by sender and piece. -/
def publishedKeys (h : List (Event Nat DownloaderMsg)) : List (Nat × Option Nat) :=
  (log Event.published h).map fun p => (p.1, p.2.pieceIndex)

/-- What every run keeps: a piece that was published is owned and not with its
downloader any more, and a downloader that said goodbye is over. -/
structure Posted (su : Setup) (σ : Sys) (h : List (Event Nat DownloaderMsg)) : Prop extends
    Sys.Inv su σ where
  nodup : (publishedKeys h).Nodup
  piece : ∀ k i, (k, some i) ∈ publishedKeys h → σ.bitfield.Owns i ∧
    ∃ s, σ.seeds[k]? = some s ∧ (s.Alive → ¬ s.Holds i)
  left : ∀ k, (k, none) ∈ publishedKeys h →
    ∃ s, σ.seeds[k]? = some s ∧ (s.phase = .leaving ∨ s.phase = .ended)

section Once

variable {su : Setup} {cfg : Config} {b : Bitfield} {s s' : SeedDownloader} {a : SeedAct}
variable {σ σ' : Sys} {act : Action} {k i : Nat} {h : List (Event Nat DownloaderMsg)}

/-! ## One downloader -/

/-- A task only gets hold of a piece by picking it. -/
theorem Effect.holds (he : Effect cfg b s a s') (hlive : s'.Alive) (hi : s'.Holds i) :
    s.Holds i ∨ b.pickPiece.2 = .returned (some i) := by
  unfold SeedDownloader.Holds at *
  cases he with
  | move hm =>
    cases hm with
    | pickNew hs hb hdl hnew =>
      rcases hi with hi | hi
      · exact Or.inl (Or.inl hi)
      · obtain rfl := Option.some.inj hi
        exact Or.inr hb
    | finish | listen | ignore | streamEnd | sendOk | sendErr | leave | release | choked | pickNone
    | pickPending =>
      rcases hi with hi | hi
      · exact Or.inl (Or.inl hi)
      · cases hi
  | choke hs hreset =>
    rcases hi with hi | hi
    · exact Or.inl (Or.inl ((resetPieces_mem hreset).mp hi))
    · cases hi
  | unchoke | orphan | startFailed =>
    rcases hi with hi | hi
    · exact Or.inl (Or.inl hi)
    · cases hi
  | block hs hframed hmem hdl hrem hinf hsplice =>
    dsimp only at hi
    rw [mem_insert_of_mem (mem_of_getElem? hdl)] at hi
    rcases hi with hi | hi
    · exact Or.inl (Or.inl hi)
    · split at hi <;> cases hi
  | valid | invalid =>
    rcases hi with hi | hi
    · exact Or.inl (Or.inl (mem_erase_iff.mp hi).2)
    · cases hi
  | @request order sends s₁ w hs hc horder hreq =>
    have hmem := requestPending_mem cfg.profile order s ⟨sends, []⟩
    rw [hreq] at hmem
    rcases hi with hi | hi
    · exact Or.inl (Or.inl ((hmem i).mp hi))
    · dsimp only [SeedDownloader.goto] at hi
      split at hi <;> cases hi
  | @requestFailed order sends s₁ w hs hc horder hreq =>
    have hmem := requestPending_mem cfg.profile order s ⟨sends, []⟩
    rw [hreq] at hmem
    rcases hi with hi | hi
    · exact Or.inl (Or.inl ((hmem i).mp hi))
    · cases hi
  | start hs hdl hreq =>
    rcases hi with hi | hi
    · rcases mem_insert_iff.mp hi with rfl | hi
      · exact Or.inl (Or.inr (by rw [hs]; rfl))
      · exact Or.inl (Or.inl hi)
    · cases hi
  | panic hcause hs' => exact absurd hs' (hlive _)

/-- A piece that is owned is never with a task again that has put it away. -/
theorem Effect.not_holds (he : Effect cfg b s a s') (hb : Bitfield.Inv cfg.torrent.numPieces b)
    (hown : b.Owns i) (hnot : ¬ s.Holds i) (hlive : s'.Alive) : ¬ s'.Holds i := by
  intro hi
  rcases he.holds hlive hi with hi | hpick
  · exact hnot hi
  · rcases Bitfield.pickPiece_spec hb cfg.torrent.numPieces_lt with ⟨-, heq⟩ | ⟨m, -, hun, -, heq⟩
    · rw [heq] at hpick
      cases hpick
    · rw [heq] at hpick
      obtain rfl := Option.some.inj (Exit.returned.inj hpick)
      exact hun hown

/-- A task that has said goodbye, or is about to, only ends. -/
theorem Effect.left (he : Effect cfg b s a s') (hs : s.phase = .leaving ∨ s.phase = .ended) :
    s'.phase = .leaving ∨ s'.phase = .ended := by
  cases he with
  | move hm =>
    cases hm with
    | leave => exact Or.inr rfl
    | finish hs' | listen hs' | ignore hs' | streamEnd hs' | sendOk hs' | sendErr hs' | release hs'
    | choked hs' | pickNone hs' | pickPending hs' | pickNew hs' =>
      rw [hs'] at hs
      rcases hs with hs | hs <;> cases hs
  | choke hs' | unchoke hs' | orphan hs' | block hs' | valid hs' | invalid hs' | request hs'
  | requestFailed hs' | start hs' | startFailed hs' =>
    rw [hs'] at hs
    rcases hs with hs | hs <;> cases hs
  | panic hcause =>
    cases hcause with
    | remaining hs' | choke hs' | remainingBlocks hs' | inflight hs' | splice hs'
    | notImplemented hs' | set hs' | notPending hs' | request hs' | pick hs' | newPiece hs'
    | start hs' | alreadyPending hs' =>
      rw [hs'] at hs
      rcases hs with hs | hs <;> cases hs

/-- A task says goodbye when the stream of its peer ends. -/
theorem Effect.leaving (he : Effect cfg b s a s') (hs' : s'.phase = .leaving) :
    s.phase = .select := by
  cases he with
  | move hm =>
    cases hm with
    | streamEnd hs => exact hs
    | finish | listen | ignore | sendOk | sendErr | leave | release | choked | pickNone
    | pickPending | pickNew => cases hs'
  | choke | unchoke | orphan | valid | invalid | requestFailed | start | startFailed => cases hs'
  | block => dsimp only at hs'; split at hs' <;> cases hs'
  | request => dsimp only [SeedDownloader.goto] at hs'; split at hs' <;> cases hs'
  | panic hcause hpanic => rw [hpanic] at hs'; cases hs'

/-- A piece that is about to be sent was just set, and is not pending any more. -/
theorem Effect.erased (he : Effect cfg b s a s') {l : Nat} {bytes : List UInt8}
    (hs' : s'.phase = .sending i l bytes) : a = .setPiece ∧ i ∉ s'.pendingPieces := by
  cases he with
  | valid =>
    obtain ⟨rfl, -, -⟩ := Phase.sending.inj hs'
    exact ⟨rfl, fun hi => (mem_erase_iff.mp hi).1 rfl⟩
  | move hm => cases hm <;> cases hs'
  | choke | unchoke | orphan | invalid | requestFailed | start | startFailed => cases hs'
  | block => dsimp only at hs'; split at hs' <;> cases hs'
  | request => dsimp only [SeedDownloader.goto] at hs'; split at hs' <;> cases hs'
  | panic hcause hpanic => rw [hpanic] at hs'; cases hs'

/-- What a step by itself makes is a piece it just set, which it had pending, or
the goodbye of a task that was reading. -/
theorem Effect.makes (he : Effect cfg b s a s') {m : DownloaderMsg} (hm : s'.message k = some m) :
    (∃ i, m.pieceIndex = some i ∧ s.bitOp a = some (.set i) ∧ s.Holds i ∧ ¬ s'.Holds i) ∨
      m.pieceIndex = none ∧ s.phase = .select ∧ s'.phase = .leaving := by
  unfold SeedDownloader.message at hm
  split at hm
  next i l bytes hs' =>
    obtain rfl := Option.some.inj hm
    obtain ⟨hs, dl, hdl, -⟩ := he.sending hs'
    obtain ⟨rfl, hnot⟩ := he.erased hs'
    refine Or.inl ⟨i, rfl, ?_, Or.inl (mem_of_getElem? hdl), fun hi => ?_⟩
    · unfold SeedDownloader.bitOp
      dsimp only
      rw [hs]
    · rcases hi with hi | hi
      · exact hnot hi
      · rw [hs'] at hi
        cases hi
  next hs' =>
    obtain rfl := Option.some.inj hm
    exact Or.inr ⟨rfl, he.leaving hs', hs'⟩
  next => cases hm

/-! ## All of them -/

theorem posted_new (su : Setup) : Posted su (Sys.new su) [] where
  toInv := inv_new su
  nodup := List.nodup_nil
  piece := fun k i hki => by cases hki
  left := fun k hk => by cases hk

/-- What is known of the messages that were published before the step. -/
theorem Posted.old (hp : Posted su σ h) (hstep : sysStep su σ act = some σ') :
    (∀ k i, (k, some i) ∈ publishedKeys h → σ'.bitfield.Owns i ∧
      ∃ s, σ'.seeds[k]? = some s ∧ (s.Alive → ¬ s.Holds i)) ∧
    ∀ k, (k, none) ∈ publishedKeys h →
      ∃ s, σ'.seeds[k]? = some s ∧ (s.phase = .leaving ∨ s.phase = .ended) := by
  have hc := (change_of_step hstep).seeds
  -- a downloader of the state before, and where it is afterwards
  have hseed : ∀ (P : SeedDownloader → Prop) (k : Nat) s, σ.seeds[k]? = some s → P s →
      (∀ s' a, Effect su.cfg σ.bitfield s a s' → P s → P s') →
      (s.phase = .select → P s.crash) → ∃ s', σ'.seeds[k]? = some s' ∧ P s' := by
    intro P j t hj hPt hP hcrash
    cases hc with
    | stay hs hb => exact ⟨t, by rw [hs]; exact hj, hPt⟩
    | spawn hs hb =>
      refine ⟨t, ?_, hPt⟩
      rw [hs, List.getElem?_append_left (List.getElem?_eq_some_iff.mp hj).1]
      exact hj
    | @move k s s' a hk he ha hs hb =>
      by_cases hjk : j = k
      · subst hjk
        obtain rfl := Option.some.inj (hj.symm.trans hk)
        refine ⟨s', ?_, hP s' a he hPt⟩
        rw [hs, List.getElem?_set_self (List.getElem?_eq_some_iff.mp hk).1]
      · refine ⟨t, ?_, hPt⟩
        rw [hs, List.getElem?_set_ne (Ne.symm hjk)]
        exact hj
    | @crash k s hk hselect hs hb =>
      by_cases hjk : j = k
      · subst hjk
        obtain rfl := Option.some.inj (hj.symm.trans hk)
        refine ⟨t.crash, ?_, hcrash hselect⟩
        rw [hs, List.getElem?_set_self (List.getElem?_eq_some_iff.mp hk).1]
      · refine ⟨t, ?_, hPt⟩
        rw [hs, List.getElem?_set_ne (Ne.symm hjk)]
        exact hj
  refine ⟨fun k i hki => ?_, fun k hk => ?_⟩
  · obtain ⟨hown, s, hs, hnot⟩ := hp.piece k i hki
    refine ⟨hc.owns hp.toInv hown, hseed (fun s => s.Alive → ¬ s.Holds i) k s hs hnot ?_
      fun _ hlive => absurd hlive (crash_not_alive s)⟩
    exact fun s' a he hnot hlive => he.not_holds hp.bitfield hown (hnot he.alive) hlive
  · obtain ⟨s, hs, hleft⟩ := hp.left k hk
    refine hseed (fun s => s.phase = .leaving ∨ s.phase = .ended) k s hs hleft
      (fun s' a he hleft => he.left hleft) fun hselect => ?_
    rw [hselect] at hleft
    rcases hleft with hleft | hleft <;> cases hleft

theorem publishedKeys_cons (e : Event Nat DownloaderMsg) (h : List (Event Nat DownloaderMsg)) :
    publishedKeys (e :: h) =
      publishedKeys h ++ (e.published.map fun p => (p.1, p.2.pieceIndex)).toList := by
  unfold publishedKeys
  rw [Mailbox.log_cons, List.map_append]
  cases e.published <;> rfl

/-- Only a step of a downloader by itself publishes. -/
theorem publishedKeys_event (hact : ∀ k a, act ≠ .seed k a) :
    publishedKeys ((σ.event su act).toList ++ h) = publishedKeys h := by
  cases he : σ.event su act with
  | none => rfl
  | some e =>
    have hno : e.published = none := by
      unfold Sys.event at he
      split at he
      next => exact absurd rfl (hact _ _)
      next =>
        split at he
        next => cases he
        next => obtain ⟨m, -, rfl⟩ := Option.map_eq_some_iff.mp he; rfl
      next => obtain ⟨m, -, rfl⟩ := Option.map_eq_some_iff.mp he; rfl
      next => obtain ⟨m, -, rfl⟩ := Option.map_eq_some_iff.mp he; rfl
      next => cases he
    show publishedKeys (e :: h) = _
    rw [publishedKeys_cons, hno]
    exact List.append_nil _

/-- The message a downloader makes is new. -/
theorem Posted.publish (hp : Posted su σ h) {a : SeedAct} {out : SeedOut} {m : DownloaderMsg}
    (hk : σ.seeds[k]? = some s) (hout : seedStep su.cfg σ.bitfield s a = some out)
    (hstep : sysStep su σ (.seed k a) = some (σ.put k out.bitfield out.seed))
    (hm : out.seed.message k = some m) :
    Posted su (σ.put k out.bitfield out.seed) (.publish k m :: h) := by
  obtain ⟨he, hb⟩ := effect_of_step hout
  obtain ⟨hpiece, hleft⟩ := hp.old hstep
  have hself : (σ.put k out.bitfield out.seed).seeds[k]? = some out.seed := by
    unfold Sys.put
    rw [List.getElem?_set_self (List.getElem?_eq_some_iff.mp hk).1]
  have hkeys : publishedKeys (.publish k m :: h) = publishedKeys h ++ [(k, m.pieceIndex)] :=
    publishedKeys_cons _ _
  have hnew : (k, m.pieceIndex) ∉ publishedKeys h := by
    intro hmem
    rcases he.makes hm with ⟨i, hi, -, hheld, -⟩ | ⟨hi, hs, -⟩
    · rw [hi] at hmem
      obtain ⟨-, t, ht, hnot⟩ := hp.piece k i hmem
      obtain rfl := Option.some.inj (hk.symm.trans ht)
      exact hnot he.alive hheld
    · rw [hi] at hmem
      obtain ⟨t, ht, hleft⟩ := hp.left k hmem
      obtain rfl := Option.some.inj (hk.symm.trans ht)
      rw [hs] at hleft
      rcases hleft with hleft | hleft <;> cases hleft
  refine ⟨inv_step hp.toInv hstep, ?_, fun j i hji => ?_, fun j hj => ?_⟩
  · rw [hkeys]
    exact hp.nodup.append (List.nodup_singleton _)
      fun _ hx hy => hnew (List.mem_singleton.mp hy ▸ hx)
  · rw [hkeys] at hji
    rcases List.mem_append.mp hji with hji | hji
    · exact hpiece j i hji
    · obtain ⟨rfl, hi⟩ := Prod.mk.inj (List.mem_singleton.mp hji)
      rcases he.makes hm with ⟨i', hi', hs, -, hnot⟩ | ⟨hi', -⟩
      · obtain rfl : i = i' := Option.some.inj (hi.trans hi')
        refine ⟨?_, out.seed, hself, fun _ => hnot⟩
        show out.bitfield.Owns i
        have hrange := (hp.known j s hk he.alive).bitOp_inRange hs
        rw [hb, hs]
        exact (Bitfield.owns_call hp.bitfield su.cfg.torrent.numPieces_lt hrange i).mpr (Or.inr rfl)
      · rw [hi'] at hi
        cases hi
  · rw [hkeys] at hj
    rcases List.mem_append.mp hj with hj | hj
    · exact hleft j hj
    · obtain ⟨rfl, hi⟩ := Prod.mk.inj (List.mem_singleton.mp hj)
      rcases he.makes hm with ⟨i', hi', -⟩ | ⟨-, -, hs'⟩
      · rw [hi'] at hi
        cases hi
      · exact ⟨out.seed, hself, Or.inl hs'⟩

/-- One step publishes nothing for the second time. -/
theorem posted_step (hp : Posted su σ h) (hstep : sysStep su σ act = some σ') :
    Posted su σ' ((σ.event su act).toList ++ h) := by
  obtain ⟨hpiece, hleft⟩ := hp.old hstep
  by_cases hact : ∀ k a, act ≠ .seed k a
  · have hkeys := @publishedKeys_event su σ act h hact
    exact ⟨inv_step hp.toInv hstep, by rw [hkeys]; exact hp.nodup, by rw [hkeys]; exact hpiece,
      by rw [hkeys]; exact hleft⟩
  · simp only [not_forall, not_not] at hact
    obtain ⟨k, a, rfl⟩ := hact
    obtain ⟨s, out, hk, hout, rfl, -⟩ := step_of_own hstep
    rw [event_own hk hout]
    cases hm : out.seed.message k with
    | some m => exact hp.publish hk hout hstep hm
    | none => exact ⟨inv_step hp.toInv hstep, hp.nodup, hpiece, hleft⟩

/-- **No downloader sends a piece twice**, and none says goodbye twice. In every
run the messages of the downloaders differ in their sender or in their piece. -/
theorem published_once (su : Setup) (acts : List Action) (σ : Sys)
    (h : List (Event Nat DownloaderMsg))
    (hrun : run (traced (sysStep su) (Sys.event su)) (Sys.new su, []) acts = some (σ, h)) :
    ((log Event.published h).map fun p => (p.1, p.2.pieceIndex)).Nodup := by
  have hkeep := run_invariant
    (P := fun p : Sys × List (Event Nat DownloaderMsg) => Posted su p.1 p.2)
    (fun p a p' hp hs => by
      obtain ⟨hstep, hh⟩ := traced_eq_some hs
      rw [hh]
      exact posted_step hp hstep)
    (posted_new su) hrun
  exact hkeep.nodup

theorem published_once_two : ∃ σ h,
    run (traced (sysStep (lone .dev)) (Sys.event (lone .dev))) (Sys.new (lone .dev), []) inStep =
      some (σ, h) ∧ ((log Event.published h).map fun p => (p.1, p.2.pieceIndex)).Nodup := by
  obtain ⟨⟨σ, h⟩, hrun⟩ := Option.isSome_iff_exists.mp
    (show (run (traced (sysStep (lone .dev)) (Sys.event (lone .dev))) (Sys.new (lone .dev), [])
      inStep).isSome = true by decide +kernel)
  exact ⟨σ, h, hrun, published_once (lone .dev) inStep σ h hrun⟩

/-! ## The rounds of the receive loop -/

/-- The peers that are still to be tried. -/
def MainPhase.peersLeft : MainPhase → Nat
  | .picking peers => peers
  | _ => 0

/-- There are no more downloaders than peers that were tried, nor than the limit. -/
structure Sys.Picked (su : Setup) (σ : Sys) : Prop where
  starting : σ.main = .starting → σ.seeds = []
  peers : σ.seeds.length + σ.main.peersLeft ≤ su.peers
  picking : 0 < su.limit → ∀ peers, σ.main = .picking peers → σ.seeds.length < su.limit
  limit : 0 < su.limit → σ.seeds.length ≤ su.limit

theorem picked_new (su : Setup) : (Sys.new su).Picked su where
  starting := fun _ => rfl
  peers := Nat.zero_le _
  picking := fun hpos _ hs => by cases hs
  limit := fun _ => Nat.zero_le _

/-- Only the number of downloaders and the phase count. -/
theorem Sys.Picked.congr (hp : σ.Picked su) (hlen : σ'.seeds.length = σ.seeds.length)
    (hmain : σ'.main = σ.main) : σ'.Picked su where
  starting := fun hs => by
    rw [hp.starting (hmain ▸ hs)] at hlen
    exact List.eq_nil_of_length_eq_zero hlen
  peers := by rw [hlen, hmain]; exact hp.peers
  picking := fun hpos peers hs => by rw [hlen]; exact hp.picking hpos peers (hmain ▸ hs)
  limit := fun hpos => by rw [hlen]; exact hp.limit hpos

/-- `pick_seeds` is over. -/
theorem Sys.Picked.settled (hp : σ.Picked su) (hlen : σ'.seeds.length = σ.seeds.length)
    (hs : σ'.main ≠ .starting) (hpick : ∀ peers, σ'.main ≠ .picking peers) : σ'.Picked su where
  starting := fun h => absurd h hs
  peers := by
    have hpeers := hp.peers
    have hzero : σ'.main.peersLeft = 0 := by
      cases hm : σ'.main with
      | picking peers => exact absurd hm (hpick peers)
      | starting | receiving | received | returned | failed | panicked => rfl
    omega
  picking := fun _ peers h => absurd h (hpick peers)
  limit := fun hpos => by rw [hlen]; exact hp.limit hpos

/-- After a message the loop looks at the bitfield, or has panicked. -/
theorem handle_main (m : DownloaderMsg) :
    (σ.handle su m).main = .received ∨ (σ.handle su m).main = .panicked := by
  unfold Sys.handle
  split
  · dsimp only
    split
    · exact Or.inr rfl
    · exact Or.inl rfl
  · exact Or.inl rfl

theorem Sys.Picked.handle (hp : σ.Picked su) {τ : Sys} (hlen : τ.seeds.length = σ.seeds.length)
    (m : DownloaderMsg) : (τ.handle su m).Picked su := by
  refine hp.settled (by rw [(handle_seeds m).1, hlen]) ?_ fun peers => ?_
  · rcases @handle_main su τ m with hs | hs <;> rw [hs] <;> exact (nomatch ·)
  · rcases @handle_main su τ m with hs | hs <;> rw [hs] <;> exact (nomatch ·)

/-- Only `pick_seeds` adds a downloader, one for each peer that is a seed, and it
stops at the limit. -/
theorem picked_spawn (hp : σ.Picked su) (hstep : sysStep su σ (.peer true) = some σ') :
    σ'.Picked su := by
  simp only [sysStep] at hstep
  split at hstep
  next peers hs =>
    obtain rfl := Option.some.inj hstep
    have hpeers := hp.peers
    rw [hs] at hpeers
    dsimp only [MainPhase.peersLeft] at hpeers
    have hlen : (σ.seeds ++ [SeedDownloader.new]).length = σ.seeds.length + 1 := by simp
    by_cases hlimit : σ.seeds.length + 1 = su.limit
    · rw [if_pos hlimit]
      refine ⟨(fun h => by cases h), ?_, (fun _ peers h => by cases h), fun _ => ?_⟩
      · dsimp only [MainPhase.peersLeft]
        omega
      · dsimp only
        omega
    · rw [if_neg hlimit]
      refine ⟨(fun h => by cases h), ?_, fun hpos _ _ => ?_, fun hpos => ?_⟩
      · dsimp only [MainPhase.peersLeft]
        omega
      · have := hp.picking hpos _ hs
        dsimp only
        omega
      · have := hp.picking hpos _ hs
        dsimp only
        omega
  next => cases hstep

/-- One step tries no more peers than there are, and accepts no more than the
limit. -/
theorem picked_step (hp : σ.Picked su) (hstep : sysStep su σ act = some σ') : σ'.Picked su := by
  have hset : ∀ {τ : Sys} (k : Nat) (t : SeedDownloader) (b : Bitfield), τ.seeds = σ.seeds →
      (τ.put k b t).seeds.length = σ.seeds.length := by
    intro τ k t b hτ
    unfold Sys.put
    rw [List.length_set, hτ]
  cases change_of_step hstep with
  | main hm =>
    cases hm with
    | pickSeeds hs hid =>
      have hnil := hp.starting hs
      refine ⟨(fun h => by cases h), ?_, fun hpos _ _ => ?_, hp.limit⟩
      · dsimp only [MainPhase.peersLeft]
        rw [hnil]
        exact Nat.le_of_eq (Nat.zero_add _)
      · dsimp only
        rw [hnil]
        exact hpos
    | badId | closed | panicked => exact hp.settled rfl (nomatch ·) fun _ => (nomatch ·)
    | picked => exact hp.settled rfl (nomatch ·) fun _ => (nomatch ·)
    | @refused peers hs =>
      have hpeers := hp.peers
      rw [hs] at hpeers
      dsimp only [MainPhase.peersLeft] at hpeers
      refine ⟨(fun h => by cases h), ?_, fun hpos _ _ => hp.picking hpos _ hs, hp.limit⟩
      dsimp only [MainPhase.peersLeft]
      omega
  | spawn => exact picked_spawn hp hstep
  | lock | sendBlocked => exact hp.congr rfl rfl
  | finish hs hlock =>
    refine hp.settled rfl ?_ fun peers => ?_
    · dsimp only
      unfold Sys.check
      split <;> exact (nomatch ·)
    · dsimp only
      unfold Sys.check
      split <;> exact (nomatch ·)
  | own | crash | sendOk | sendErr => exact hp.congr (hset _ _ _ rfl) rfl
  | @recv j r hs hr hadm => exact hp.handle (τ := { σ with chan := r.chan }) rfl _
  | @recvAdmit j r k s m hs hr hadm hk hm =>
    exact hp.handle (τ := Sys.put { σ with chan := r.chan } k σ.bitfield s.afterSend)
      (hset _ _ _ rfl) _

/-- A key that was published is one of a downloader's, for a piece or the goodbye. -/
theorem Posted.mem_keys (hp : Posted su σ h) {k : Nat} {o : Option Nat}
    (hko : (k, o) ∈ publishedKeys h) : k < σ.seeds.length ∧
      o ∈ insert none ((Finset.range su.cfg.torrent.numPieces).image some) := by
  cases o with
  | none =>
    obtain ⟨s, hk, -⟩ := hp.left k hko
    exact ⟨(List.getElem?_eq_some_iff.mp hk).1, Finset.mem_insert_self _ _⟩
  | some i =>
    obtain ⟨hown, s, hk, -⟩ := hp.piece k i hko
    refine ⟨(List.getElem?_eq_some_iff.mp hk).1, Finset.mem_insert_of_mem ?_⟩
    exact Finset.mem_image_of_mem _ (Finset.mem_range.mpr (hp.bitfield.lt_of_owns hown))

/-- A downloader has one message for each piece, and one to leave with. -/
theorem card_keys_le (n : Nat) : (insert none ((Finset.range n).image some)).card ≤ n + 1 :=
  Nat.le_trans (Finset.card_insert_le _ _) (Nat.succ_le_succ
    (Nat.le_trans Finset.card_image_le (Nat.le_of_eq (Finset.card_range n))))

/-- What one downloader published: each piece at most once, and the goodbye. -/
theorem Posted.sender_length_le (hp : Posted su σ h) (k : Nat) :
    (ofSender k (log Event.published h)).length ≤ su.cfg.torrent.numPieces + 1 := by
  have hkeys : ofSender k (publishedKeys h) =
      (ofSender k (log Event.published h)).map DownloaderMsg.pieceIndex := ofSender_map _ _ _
  have hsub : (ofSender k (publishedKeys h)).toFinset ⊆
      insert none ((Finset.range su.cfg.torrent.numPieces).image some) := fun o ho =>
    (hp.mem_keys (mem_ofSender.mp (List.mem_toFinset.mp ho))).2
  have hcard := Finset.card_le_card hsub
  rw [List.toFinset_card_of_nodup (ofSender_nodup k hp.nodup), hkeys, List.length_map] at hcard
  exact Nat.le_trans hcard (card_keys_le _)

/-- What the downloaders published fits in a table of `n + 1` columns. -/
theorem Posted.length_le (hp : Posted su σ h) :
    (log Event.published h).length ≤ σ.seeds.length * (su.cfg.torrent.numPieces + 1) := by
  have hlen : (publishedKeys h).length = (log Event.published h).length := List.length_map _
  have hsub : (publishedKeys h).toFinset ⊆ Finset.range σ.seeds.length ×ˢ
      insert none ((Finset.range su.cfg.torrent.numPieces).image some) := by
    intro ⟨k, o⟩ hko
    obtain ⟨hk, ho⟩ := hp.mem_keys (List.mem_toFinset.mp hko)
    exact Finset.mem_product.mpr ⟨Finset.mem_range.mpr hk, ho⟩
  have hcard := Finset.card_le_card hsub
  rw [List.toFinset_card_of_nodup hp.nodup, hlen, Finset.card_product, Finset.card_range] at hcard
  exact Nat.le_trans hcard (Nat.mul_le_mul_left _ (card_keys_le _))

/-- **The receive loop ends its rounds.** Whatever the peers send and however the
tasks interleave, at most `MAX_SEEDS` downloaders are spawned. What the loop
receives comes from them, at most `num_pieces + 1` messages from each. -/
theorem received_bounded (su : Setup) (acts : List Action) (σ : Sys)
    (h : List (Event Nat DownloaderMsg)) (hlimit : su.limit = maxSeeds)
    (hrun : run (traced (sysStep su) (Sys.event su)) (Sys.new su, []) acts = some (σ, h)) :
    σ.seeds.length ≤ min su.peers maxSeeds ∧
    (arrivals h).map Prod.snd = log Event.received h ∧
    (∀ p ∈ arrivals h, p.1 < σ.seeds.length) ∧
    (∀ k, (ofSender k (arrivals h)).length ≤ su.cfg.torrent.numPieces + 1) ∧
    (log Event.received h).length ≤ min su.peers maxSeeds * (su.cfg.torrent.numPieces + 1) := by
  have hkeep := run_invariant
    (P := fun p : Sys × List (Event Nat DownloaderMsg) => (p.1.Wired ∧ Posted su p.1 p.2) ∧
      Balanced p.2 p.1.chan.queue p.1.message p.1.main.ended ∧ p.1.Picked su)
    (fun p a p' hp hs => by
      obtain ⟨hstep, hh⟩ := traced_eq_some hs
      obtain ⟨⟨hw, hposted⟩, hb, hpicked⟩ := hp
      rw [hh]
      exact ⟨⟨wired_step hw hstep, posted_step hposted hstep⟩, balanced_step hw hb hstep,
        picked_step hpicked hstep⟩)
    ⟨⟨wired_new su, posted_new su⟩, .nil, picked_new su⟩ hrun
  obtain ⟨⟨-, hposted⟩, hb, hpicked⟩ := hkeep
  have hseeds : σ.seeds.length ≤ min su.peers maxSeeds := by
    have hle := hpicked.limit (by rw [hlimit]; exact Nat.succ_pos 4)
    rw [hlimit] at hle
    exact Nat.le_min.mpr ⟨Nat.le_trans (Nat.le_add_right _ _) hpicked.peers, hle⟩
  refine ⟨hseeds, hb.arrivals_map, fun p hp => ?_, fun k => ?_, ?_⟩
  · exact (hposted.mem_keys (List.mem_map_of_mem (hb.published_of_arrival hp))).1
  · exact Nat.le_trans (hb.arrivals_sublist k).length_le (hposted.sender_length_le k)
  · exact Nat.le_trans hb.received_length_le
      (Nat.le_trans hposted.length_le (Nat.mul_le_mul_right _ hseeds))

theorem received_bounded_two : ∃ σ h,
    run (traced (sysStep (lone .dev)) (Sys.event (lone .dev))) (Sys.new (lone .dev), []) inStep =
      some (σ, h) ∧ σ.seeds.length ≤ min 1 maxSeeds ∧
    (arrivals h).map Prod.snd = log Event.received h ∧
    (∀ p ∈ arrivals h, p.1 < σ.seeds.length) ∧
    (∀ k, (ofSender k (arrivals h)).length ≤ 2 + 1) ∧
    (log Event.received h).length ≤ min 1 maxSeeds * (2 + 1) := by
  obtain ⟨⟨σ, h⟩, hrun⟩ := Option.isSome_iff_exists.mp
    (show (run (traced (sysStep (lone .dev)) (Sys.event (lone .dev))) (Sys.new (lone .dev), [])
      inStep).isSome = true by decide +kernel)
  exact ⟨σ, h, hrun, received_bounded (lone .dev) inStep σ h rfl hrun⟩

end Once

end BitTorrent
