import BitTorrent.Download.Wiring
import BitTorrent.Lib.Mailbox

/-!
# The messages of the downloaders

What happens to a `DownloaderMsg` between the downloader that makes it and the
receive loop, over a whole run: the channel is a mailbox whose books balance
(`delivery_exact`). A downloader makes a message when a piece passes its
validation, and when the stream of its peer ends. It holds the message until the
channel has room, and gives it up when the receive loop is over.

The books are those of `Lib.Mailbox`. Each step of the system is an event for them
or none (`Sys.event`): making a message is `publish`, a send that finds room is
`enqueue`, a receive is `receive`, also when it lets a blocked sender in, and a send
that fails is `drop`. That the books balance is then proved step by step, by the
lemma of `Lib.Mailbox` for the event.

A downloader that is blocked in the channel still holds its message. It is not in
the queue, and enters it when the loop has made room.
-/

namespace BitTorrent

open Mailbox (Event Balanced log)

/-- What the task `k` is sending. -/
def Sys.message (σ : Sys) (k : Nat) : Option DownloaderMsg :=
  (σ.seeds[k]?).bind (SeedDownloader.message k)

/-- The message the task `k` makes in the step `a`. -/
def Sys.makes (su : Setup) (σ : Sys) (k : Nat) (a : SeedAct) : Option DownloaderMsg := do
  let s ← σ.seeds[k]?
  let out ← seedStep su.cfg σ.bitfield s a
  out.seed.message k

/-- The downloader of a blocked send. -/
def Task.sender : Task × DownloaderMsg → Option (Nat × DownloaderMsg)
  | (.seed k, m) => some (k, m)
  | (.main, _) => none

/-- What a step does to the messages. -/
def Sys.event (su : Setup) (σ : Sys) : Action → Option (Event Nat DownloaderMsg)
  | .seed k a => (σ.makes su k a).map (.publish k)
  | .send k => if σ.chan.Full then none else (σ.message k).map (.enqueue k)
  | .recv j => σ.chan.queue.head?.map fun m =>
    .receive m ((σ.chan.blocked[j]?).bind Task.sender)
  | .sendErr k => (σ.message k).map (.drop k)
  | _ => none

section Delivery

variable {su : Setup} {σ σ' : Sys} {act : Action} {k : Nat} {s s' : SeedDownloader}
variable {h : List (Event Nat DownloaderMsg)} {m : DownloaderMsg}

theorem message_eq (hk : σ.seeds[k]? = some s) : σ.message k = s.message k := by
  unfold Sys.message
  rw [hk]
  rfl

theorem message_put_self (hk : σ.seeds[k]? = some s) (b : Bitfield) (s' : SeedDownloader) :
    (σ.put k b s').message k = s'.message k := by
  refine message_eq ?_
  unfold Sys.put
  rw [List.getElem?_set_self (List.getElem?_eq_some_iff.mp hk).1]

theorem message_put_ne {j : Nat} (hj : j ≠ k) (b : Bitfield) (s' : SeedDownloader) :
    (σ.put k b s').message j = σ.message j := by
  unfold Sys.message Sys.put
  dsimp only
  rw [List.getElem?_set_ne (Ne.symm hj)]

/-- A new downloader sends nothing. -/
theorem message_spawn (phase : MainPhase) (j : Nat) :
    Sys.message { σ with seeds := σ.seeds ++ [.new], main := phase } j = σ.message j := by
  unfold Sys.message
  dsimp only
  rcases Nat.lt_or_ge j σ.seeds.length with hlt | hge
  · rw [List.getElem?_append_left hlt]
  · rw [List.getElem?_eq_none hge, List.getElem?_append_right hge]
    cases hx : [SeedDownloader.new][j - σ.seeds.length]? with
    | none => rfl
    | some s =>
      obtain rfl := List.mem_singleton.mp (List.mem_of_getElem? hx)
      rfl

theorem message_handle (m : DownloaderMsg) (j : Nat) :
    (σ.handle su m).message j = σ.message j := by
  unfold Sys.message
  rw [(handle_seeds m).1]

/-- A task whose message went through, or failed, has none. -/
theorem message_afterSend : s.afterSend.message k = none := by
  unfold SeedDownloader.afterSend SeedDownloader.goto SeedDownloader.message
  dsimp only
  split
  next heq => split at heq <;> cases heq
  next heq => split at heq <;> cases heq
  next => rfl

/-- Nothing is sent after a send that failed. -/
theorem message_afterErr : s.afterErr.message k = none := by
  unfold SeedDownloader.afterErr SeedDownloader.goto SeedDownloader.message
  dsimp only
  split
  next heq => split at heq <;> cases heq
  next heq => split at heq <;> cases heq
  next => rfl

/-- What a step by itself makes is what the task sends afterwards. -/
theorem makes_eq {a : SeedAct} {out : SeedOut} (hk : σ.seeds[k]? = some s)
    (hout : seedStep su.cfg σ.bitfield s a = some out) :
    σ.makes su k a = out.seed.message k := by
  unfold Sys.makes
  rw [hk]
  show (seedStep su.cfg σ.bitfield s a).bind _ = _
  rw [hout]
  rfl

/-- A step of a downloader by itself publishes the message it comes to send. -/
theorem event_own {a : SeedAct} {out : SeedOut} (hk : σ.seeds[k]? = some s)
    (hout : seedStep su.cfg σ.bitfield s a = some out) :
    σ.event su (.seed k a) = (out.seed.message k).map (.publish k) :=
  congrArg (Option.map (Event.publish k)) (makes_eq hk hout)

theorem event_send (hk : σ.seeds[k]? = some s) (hm : s.message k = some m)
    (hroom : ¬ σ.chan.Full) : σ.event su (.send k) = some (.enqueue k m) := by
  unfold Sys.event
  dsimp only
  rw [if_neg hroom, message_eq hk, hm]
  rfl

theorem event_sendErr (hk : σ.seeds[k]? = some s) (hm : s.message k = some m) :
    σ.event su (.sendErr k) = some (.drop k m) :=
  congrArg (Option.map (Event.drop k)) ((message_eq hk).trans hm)

/-- A receive takes the front of the queue, and may let a blocked sender in. -/
theorem event_recv {j : Nat} {q : List DownloaderMsg} (hq : σ.chan.queue = m :: q) :
    σ.event su (.recv j) = some (.receive m ((σ.chan.blocked[j]?).bind Task.sender)) := by
  unfold Sys.event
  dsimp only
  rw [hq]
  rfl

/-- The task that made the step is one of the tasks. -/
theorem step_of_own {a : SeedAct} (hstep : sysStep su σ (.seed k a) = some σ') :
    ∃ s out, σ.seeds[k]? = some s ∧ seedStep su.cfg σ.bitfield s a = some out ∧
      σ' = σ.put k out.bitfield out.seed ∧ a.kind ≠ .channel := by
  simp only [sysStep] at hstep
  split at hstep
  next hkind =>
    split at hstep
    next =>
      obtain ⟨s, out, hk, hout, heq⟩ := moveSeed_eq_some hstep
      exact ⟨s, out, hk, hout, heq, by rw [hkind]; intro h; cases h⟩
    next => cases hstep
  next hkind =>
    obtain ⟨s, out, hk, hout, heq⟩ := moveSeed_eq_some hstep
    exact ⟨s, out, hk, hout, heq, by rw [hkind]; intro h; cases h⟩
  next => cases hstep

/-- The receive loop is over once and for all. -/
theorem Change.ended (hc : Change su σ act σ') (hopen : σ'.main.ended = false) :
    σ.main.ended = false := by
  cases hc with
  | main hm =>
    cases hm with
    | pickSeeds hs | badId hs | refused hs | panicked hs | picked hs | closed hs => rw [hs]; rfl
  | spawn hs hphase => rw [hs]; rfl
  | finish hs hlock => rw [hs]; rfl
  | lock | own | crash | sendBlocked | sendOk | sendErr => exact hopen
  | recv hs hr hadm => rw [hs]; rfl
  | recvAdmit hs hr hadm hk hm => rw [hs]; rfl

/-- A step of a downloader by itself: it may make a message. -/
theorem balanced_own {a : SeedAct} (hb : Balanced h σ.chan.queue σ.message σ.main.ended)
    (hstep : sysStep su σ (.seed k a) = some σ') :
    Balanced ((σ.event su (.seed k a)).toList ++ h) σ'.chan.queue σ'.message σ'.main.ended := by
  obtain ⟨s, out, hk, hout, rfl, hkind⟩ := step_of_own hstep
  have hnone : σ.message k = none := by
    rw [message_eq hk]
    exact (effect_of_step hout).1.message_none hkind
  have hself := message_put_self hk out.bitfield out.seed
  have hother : ∀ j, j ≠ k → (σ.put k out.bitfield out.seed).message j = σ.message j :=
    fun j hj => message_put_ne hj out.bitfield out.seed
  rw [event_own hk hout]
  cases hm : out.seed.message k with
  | some m => exact hb.publish hnone (hself.trans hm) hother
  | none =>
    refine hb.quiet (fun j => ?_) id
    by_cases hj : j = k
    · rw [hj, hself, hm, hnone]
    · exact hother j hj

/-- The books balance after every step. -/
theorem balanced_step (hw : σ.Wired) (hb : Balanced h σ.chan.queue σ.message σ.main.ended)
    (hstep : sysStep su σ act = some σ') :
    Balanced ((σ.event su act).toList ++ h) σ'.chan.queue σ'.message σ'.main.ended := by
  have hended := (change_of_step hstep).ended
  cases change_of_step hstep with
  | main hm => cases hm <;> exact hb.quiet (fun _ => rfl) hended
  | spawn hs hphase => exact hb.quiet (message_spawn _) hended
  | lock hq hwant => exact hb.quiet (fun _ => rfl) hended
  | finish hs hlock => exact hb.quiet (fun _ => rfl) hended
  | own => exact balanced_own hb hstep
  | @crash k s hk hs =>
    -- neither before nor after has the task a message
    refine hb.quiet (fun j => ?_) hended
    by_cases hj : j = k
    · rw [hj, message_put_self hk, message_eq hk]
      unfold SeedDownloader.message
      rw [hs]
      rfl
    · exact message_put_ne hj _ _
  | @sendBlocked k s m hopen hk hm hnew hfull =>
    unfold Sys.event
    dsimp only
    rw [if_pos hfull, (Chan.send_of_full hfull).1]
    exact hb.quiet (fun _ => rfl) hended
  | @sendOk k s m hopen hk hm hnew hroom =>
    rw [event_send hk hm hroom]
    rw [hopen] at hb
    unfold Sys.put
    dsimp only
    rw [(Chan.send_of_not_full hroom).1, hopen]
    exact hb.enqueue ((message_eq hk).trans hm)
      ((message_put_self hk σ.bitfield s.afterSend).trans message_afterSend)
      fun j hj => message_put_ne hj σ.bitfield s.afterSend
  | @sendErr k s m hclosed hk hm =>
    rw [event_sendErr hk hm]
    rw [hclosed] at hb
    unfold Sys.put
    dsimp only
    rw [hclosed]
    exact hb.drop ((message_eq hk).trans hm)
      ((message_put_self hk σ.bitfield s.afterErr).trans message_afterErr)
      fun j hj => message_put_ne hj σ.bitfield s.afterErr
  | @recv j r hs hr hadm =>
    have hqueue := Chan.recv_none hr hadm
    have hno : σ.chan.blocked[j]? = none := by
      rw [Chan.recv_admitted_eq hr] at hadm
      exact Option.map_eq_none_iff.mp hadm
    rw [event_recv hqueue, hno, (handle_wires _).2]
    rw [hqueue] at hb
    exact hb.receive.quiet (message_handle (σ := { σ with chan := r.chan }) _) hended
  | @recvAdmit j r k s m hs hr hadm hk hm =>
    obtain ⟨q, hqueue, ⟨t, m', hj, hadm', hout, -⟩ | ⟨-, hadm', -⟩⟩ := Chan.recv_cases hr
    · obtain rfl := Option.some.inj (hadm'.symm.trans hadm)
      -- what the channel has of the task is what the task is sending
      obtain ⟨k', s', hkk, hk', hm'⟩ := hw.blocked _ _ (List.mem_of_getElem? hj)
      obtain rfl := Task.seed.inj hkk
      obtain rfl := Option.some.inj (hk.symm.trans hk')
      obtain rfl := Option.some.inj (hm.symm.trans hm')
      have hopen : σ.main.ended = false := by rw [hs]; rfl
      rw [event_recv hqueue, hj, (handle_wires _).2]
      rw [hqueue, hopen] at hb
      have hnext := hb.receive_next ((message_eq hk).trans hm)
        ((message_put_self hk σ.bitfield s.afterSend).trans message_afterSend)
        fun j hj => message_put_ne hj σ.bitfield s.afterSend
      rw [← hout] at hnext
      exact hnext.quiet (message_handle (σ := Sys.put { σ with chan := r.chan } k _ _) _)
        fun _ => rfl
    · rw [hadm'] at hadm
      cases hadm

/-- **Messages are delivered exactly once, in order.** In every run, whatever the
peers do and however the tasks interleave: what the receive loop received, and
then what is in the queue, is what was enqueued, in that order. What a downloader
published is what it enqueued, then what it dropped, then the message it is still
sending, and nothing is dropped before the receive loop is over. -/
theorem delivery_exact (su : Setup) (acts : List Action) (σ : Sys)
    (h : List (Event Nat DownloaderMsg))
    (hrun : run (traced (sysStep su) (Sys.event su)) (Sys.new su, []) acts = some (σ, h)) :
    Balanced h σ.chan.queue σ.message σ.main.ended := by
  have hkeep := run_invariant
    (P := fun p : Sys × List (Event Nat DownloaderMsg) =>
      p.1.Wired ∧ Balanced p.2 p.1.chan.queue p.1.message p.1.main.ended)
    (fun p a p' hp hs => by
      obtain ⟨hstep, hh⟩ := traced_eq_some hs
      rw [hh]
      exact ⟨wired_step hp.1 hstep, balanced_step hp.1 hp.2 hstep⟩)
    ⟨wired_new su, .nil⟩ hrun
  exact hkeep.2

/-- One of two pieces is sent and received, and the next one is picked. -/
def brought : List Action :=
  [.pickSeeds, .peer true, .picked] ++ Action.join 0 ++ Action.fetch 0 0 1 ++ [.recv 0]

theorem delivery_exact_two : ∃ σ h,
    run (traced (sysStep (lone .dev)) (Sys.event (lone .dev))) (Sys.new (lone .dev), []) brought =
      some (σ, h) ∧ (log Event.received h).length = 1 ∧
    Balanced h σ.chan.queue σ.message σ.main.ended := by
  obtain ⟨⟨σ, h⟩, hrun, hone⟩ := Option.map_eq_some_iff.mp
    (show (run (traced (sysStep (lone .dev)) (Sys.event (lone .dev))) (Sys.new (lone .dev), [])
      brought).map (fun p => (log Event.received p.2).length) = some 1 by decide +kernel)
  exact ⟨σ, h, hrun, hone, delivery_exact (lone .dev) brought σ h hrun⟩

end Delivery

end BitTorrent
