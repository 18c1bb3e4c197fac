import BitTorrent.Download.Wiring

/-!
# The lock and the channel

A downloader holds the lock while it sends a piece, and the receive loop takes
the lock after each message. When the queue is full at the wrong moment the two
wait for each other (`Sys.Deadlocked`): the loop received a message and wants
the lock, its holder is blocked in `send`, and only the loop could make room.

`deadlock_free` gives the condition under which that never happens: a piece that
finds the queue full is not sent while the loop is between a receive and its
lock, and a receive with the holder blocked lets the holder in. Whoever waits
for the lock or the channel then has somebody who can move (`Sys.Live`). Where
the condition fails the deadlock is one step away (`deadlock_of_left_behind`),
and it does not end (`deadlock_permanent`).

Who can move is told by what can be taken in the state: a step of the task that
waits for no peer (`Sys.CanMoveAlone`), so that no peer has to help. A downloader
that reads from its peer's stream or writes to it is not waiting for the lock or the
channel, and it holds neither.

The invariant is `Sys.Drained`, the wiring of the system and that no holder is left
behind by the loop. The waits form a chain of length two at most: a task waits for
the holder, the holder for the loop. Without a deadlock the end of the chain can
move.
-/

namespace BitTorrent

/-- The receive loop waits for the lock, and its holder for room in the channel. -/
def Sys.Deadlocked (σ : Sys) : Prop :=
  .main ∈ σ.lock.waiters ∧ ∃ k, σ.lock.holder = some (.seed k) ∧ σ.Blocked (.seed k) ∧ σ.chan.Full

/-- A deadlock by what can be computed. -/
theorem deadlocked_iff (σ : Sys) : σ.Deadlocked ↔
    .main ∈ σ.lock.waiters ∧ ∃ t ∈ σ.lock.holder, t ≠ .main ∧ σ.Blocked t ∧ σ.chan.Full := by
  refine and_congr_right fun _ => ⟨?_, ?_⟩
  · intro h
    obtain ⟨k, hk, hb⟩ := h
    exact ⟨.seed k, hk, by simp, hb⟩
  · intro h
    obtain ⟨t, ht, hne, hb⟩ := h
    cases t with
    | main => exact absurd rfl hne
    | seed k => exact ⟨k, ht, hb⟩

instance (σ : Sys) : Decidable σ.Deadlocked :=
  decidable_of_iff
    (.main ∈ σ.lock.waiters ∧ ∃ t ∈ σ.lock.holder, t ≠ .main ∧ σ.Blocked t ∧ σ.chan.Full)
    (deadlocked_iff σ).symm

/-- One of the tasks of `T` can take a step. -/
def Sys.CanMove (su : Setup) (σ : Sys) (T : Task → Prop) : Prop :=
  ∃ a σ', T a.task ∧ sysStep su σ a = some σ'

/-- One of the tasks of `T` can take a step that waits for no peer. -/
def Sys.CanMoveAlone (su : Setup) (σ : Sys) (T : Task → Prop) : Prop :=
  ∃ a σ', T a.task ∧ a.onStream = false ∧ sysStep su σ a = some σ'

/-- Whoever waits, waits for somebody who can move. -/
structure Sys.Live (su : Setup) (σ : Sys) : Prop where
  free : ¬ σ.Deadlocked
  lock : σ.lock.waiters ≠ [] → σ.CanMove su fun t => t = .main ∨ σ.lock.holder = some t
  send : σ.chan.blocked ≠ [] →
    σ.CanMove su fun t => t = .main ∨ σ.lock.holder = some t ∨ σ.Blocked t
  recv : σ.main = .receiving → σ.CanMove su fun _ => True

/-- The step does not leave the receive loop behind a holder that is blocked. -/
def HolderDrains (σ : Sys) : Action → Prop
  | .send k => σ.lock.holder = some (.seed k) → σ.chan.Full → σ.main ≠ .received
  | .recv j => ∀ t ∈ σ.lock.holder, σ.Blocked t → (σ.chan.blocked[j]?).map Prod.fst = some t
  | _ => True

instance (σ : Sys) : ∀ a : Action, Decidable (HolderDrains σ a)
  | .send k => inferInstanceAs (Decidable (σ.lock.holder = some (.seed k) → _ → _))
  | .recv _ => inferInstanceAs (Decidable (∀ t ∈ σ.lock.holder, _))
  | .pickSeeds | .peer _ | .peerPanic | .picked | .recvClosed | .lock _ | .finish | .seed ..
  | .readPanic _ | .sendErr _ => isTrue trivial

/-- A holder that is blocked has the receive loop to wait for. -/
structure Sys.Drained (su : Setup) (σ : Sys) : Prop extends Sys.Inv su σ, Sys.Wired σ where
  drains : ∀ t, σ.lock.holder = some t → σ.Blocked t → σ.main ≠ .received

section Deadlock

variable {su : Setup} {σ σ' : Sys} {a : Action} {k : Nat} {s : SeedDownloader}

/-! ## Somebody can move -/

theorem Sys.CanMoveAlone.mono {T T' : Task → Prop} (h : σ.CanMoveAlone su T)
    (hT : ∀ t, T t → T' t) : σ.CanMoveAlone su T' := by
  obtain ⟨a, σ', ha, halone, hstep⟩ := h
  exact ⟨a, σ', hT _ ha, halone, hstep⟩

theorem Sys.CanMoveAlone.canMove {T : Task → Prop} (h : σ.CanMoveAlone su T) :
    σ.CanMove su T := by
  obtain ⟨a, σ', ha, -, hstep⟩ := h
  exact ⟨a, σ', ha, hstep⟩

theorem Sys.CanMove.mono {T T' : Task → Prop} (h : σ.CanMove su T) (hT : ∀ t, T t → T' t) :
    σ.CanMove su T' := by
  obtain ⟨a, σ', ha, hstep⟩ := h
  exact ⟨a, σ', hT _ ha, hstep⟩

theorem alone_of {T : Task → Prop} (hT : T a.task) (ha : a.onStream = false)
    (h : (sysStep su σ a).isSome = true) : σ.CanMoveAlone su T := by
  obtain ⟨σ', hstep⟩ := Option.isSome_iff_exists.mp h
  exact ⟨a, σ', hT, ha, hstep⟩

/-- A step of a downloader that needs neither the lock nor the channel. -/
theorem step_free {a : SeedAct} {out : SeedOut} (hk : σ.seeds[k]? = some s)
    (hkind : a.kind = .free) (hout : seedStep su.cfg σ.bitfield s a = some out) :
    sysStep su σ (.seed k a) = some (σ.put k out.bitfield out.seed) := by
  simp only [sysStep, hkind]
  exact moveSeed_of_step hk hout

/-- A step of the downloader that holds the lock. -/
theorem alone_locked {T : Task → Prop} {a : SeedAct} {out : SeedOut} (hk : σ.seeds[k]? = some s)
    (hkind : a.kind = .locked) (hlock : σ.lock.holder = some (.seed k))
    (hout : seedStep su.cfg σ.bitfield s a = some out) (hT : T (.seed k)) :
    σ.CanMoveAlone su T := by
  refine ⟨.seed k a, σ.put k out.bitfield out.seed, hT, ?_, ?_⟩
  · cases a with
    | check | setPiece | pick => rfl
    | keepAlive | streamEnd | streamError | deliver | sendOk | sendErr | release | request
    | start => cases hkind
  · simp only [sysStep, hkind, if_pos hlock]
    exact moveSeed_of_step hk hout

theorem alone_lock {T : Task → Prop} {t : Task} (hq : t ∉ σ.lock.queue)
    (hw : σ.wantsLock t = true) (hT : T t) : σ.CanMoveAlone su T :=
  ⟨.lock t, _, hT, rfl, if_pos ⟨hq, hw⟩⟩

theorem wantsLock_seed (hk : σ.seeds[k]? = some s) :
    σ.wantsLock (.seed k) = s.phase.wantsLock := by
  unfold Sys.wantsLock
  dsimp only
  rw [hk]
  rfl

/-- A task whose message is not with the channel yet can send it. -/
theorem alone_send {T : Task → Prop} (hk : σ.seeds[k]? = some s) {m : DownloaderMsg}
    (hm : s.message k = some m) (hopen : σ.main.ended = false) (hb : ¬ σ.Blocked (.seed k))
    (hT : T (.seed k)) : σ.CanMoveAlone su T := by
  refine alone_of (a := .send k) hT rfl ?_
  simp only [sysStep, hopen, Bool.false_eq_true, if_false, Sys.send, hk, hm, Option.bind_eq_bind,
    Option.bind_some, if_neg hb]
  split
  · rfl
  · rw [moveSeed_of_step (σ := { σ with chan := σ.chan.send (.seed k) m }) hk
      (seedStep_sendOk _ _ hm)]
    rfl

/-- A send fails once the receive loop is over. -/
theorem alone_sendErr {T : Task → Prop} (hk : σ.seeds[k]? = some s) {m : DownloaderMsg}
    (hm : s.message k = some m) (hclosed : σ.main.ended = true) (hT : T (.seed k)) :
    σ.CanMoveAlone su T := by
  obtain ⟨e, he⟩ := seedStep_sendErr su.cfg σ.bitfield hm
  exact ⟨.sendErr k, _, hT, rfl, (if_pos hclosed).trans
    (moveSeed_of_step (σ := { σ with chan := _ }) hk he)⟩

/-- The receive loop takes a message when there is one. -/
theorem alone_recv {T : Task → Prop} (hw : σ.Wired) (hs : σ.main = .receiving)
    (hq : σ.chan.queue ≠ []) (hT : T .main) : σ.CanMoveAlone su T := by
  obtain ⟨r, hr⟩ := Chan.recv_of_ne_nil hq
  refine alone_of (a := .recv 0) hT rfl ?_
  have hstep : sysStep su σ (.recv 0) = σ.receive su 0 := by simp only [sysStep, hs]
  rw [hstep, Sys.receive, hr, Option.bind_eq_bind, Option.bind_some]
  cases hadm : r.admitted with
  | none => rfl
  | some t =>
    obtain ⟨m, q, hmem, -⟩ := Chan.recv_admitted hr hadm
    obtain ⟨k, s, rfl, hk, hm⟩ := hw.blocked t m hmem
    dsimp only
    rw [moveSeed_of_step (σ := { σ with chan := r.chan }) hk (seedStep_sendOk _ _ hm)]
    rfl

/-- The receive loop gets ahead unless it wants the lock or waits for a message. -/
theorem alone_main {T : Task → Prop} (hw : σ.Wired) (hopen : σ.main.ended = false)
    (hs : σ.main ≠ .received) (hq : σ.main = .receiving → σ.chan.queue ≠ []) (hT : T .main) :
    σ.CanMoveAlone su T := by
  cases hm : σ.main with
  | starting =>
    exact alone_of (a := .pickSeeds) hT rfl (by simp only [sysStep, hm, Option.isSome_some])
  | picking peers =>
    cases peers with
    | zero => exact alone_of (a := .picked) hT rfl (by simp only [sysStep, hm, Option.isSome_some])
    | succ peers =>
      exact alone_of (a := .peer false) hT rfl (by
        simp only [sysStep, hm, Bool.false_eq_true, if_false, Option.isSome_some])
  | receiving => exact alone_recv hw hm (hq hm) hT
  | received => exact absurd hm hs
  | returned | failed | panicked => rw [hm] at hopen; cases hopen

/-- Somebody is blocked only on a full queue, and it has room for five. -/
theorem queue_ne_nil (hb : σ.chan.blocked ≠ []) : σ.chan.queue ≠ [] := by
  intro h
  have hfull := σ.chan.blocked_full hb
  rw [h] at hfull
  cases hfull

theorem blocked_ne_nil {t : Task} (hb : σ.Blocked t) : σ.chan.blocked ≠ [] := by
  intro h
  unfold Sys.Blocked at hb
  rw [h] at hb
  cases hb

/-- The holder of the lock can move, or else the receive loop can. Neither waits
for a peer. -/
theorem alone_holder (h : σ.Drained su) {t : Task} (ht : σ.lock.holder = some t) :
    σ.CanMoveAlone su fun u => u = .main ∨ σ.lock.holder = some u := by
  cases t with
  | main =>
    have hs := h.main (FifoMutex.mem_of_holder ht)
    exact alone_of (a := .finish) (Or.inl rfl) rfl
      (by simp only [sysStep, hs, if_pos ht, Option.isSome_some])
  | seed k =>
    obtain ⟨s, hk, hph⟩ := h.queued k (FifoMutex.mem_of_holder ht)
    cases hs : s.phase with
    | loopHead =>
      exact alone_locked (a := .check) hk rfl ht
        (by simp only [seedStep, hs]; rfl) (Or.inr ht)
    | complete i =>
      have hlive : s.Alive := fun e he => by rw [hs] at he; cases he
      obtain ⟨out, hout⟩ := setPiece_returns h.bitfield (h.known k s hk hlive) hs
      exact alone_locked (a := .setPiece) hk rfl ht hout (Or.inr ht)
    | pick =>
      obtain ⟨out, hout⟩ := pick_returns h.bitfield hs
      exact alone_locked (a := .pick) hk rfl ht hout (Or.inr ht)
    | sent =>
      exact ⟨.seed k .release, _, Or.inr ht, rfl,
        step_free hk rfl (by simp only [seedStep, hs]; rfl)⟩
    | sending i l bytes =>
      have hm : s.message k = some (.piece i l bytes) := message_of_sending hs
      cases hopen : σ.main.ended with
      | true => exact alone_sendErr hk hm hopen (Or.inr ht)
      | false =>
        by_cases hb : σ.Blocked (.seed k)
        · -- only the receive loop makes room, and it is not waiting for the lock
          exact alone_main h.toWired hopen (h.drains _ ht hb)
            (fun _ => queue_ne_nil (blocked_ne_nil hb)) (Or.inl rfl)
        · exact alone_send hk hm hopen hb (Or.inr ht)
    | select | request | start | leaving | ended | panicked =>
      rw [hs] at hph
      rcases hph with hph | hph <;> cases hph

/-- So can somebody when a sender is blocked. -/
theorem alone_blocked (h : σ.Drained su) (hb : σ.chan.blocked ≠ []) :
    σ.CanMoveAlone su fun u => u = .main ∨ σ.lock.holder = some u ∨ σ.Blocked u := by
  obtain ⟨⟨t, m⟩, hmem⟩ := List.exists_mem_of_ne_nil _ hb
  obtain ⟨k, s, rfl, hk, hm⟩ := h.blocked t m hmem
  have hbk : σ.Blocked (.seed k) := List.mem_map.mpr ⟨_, hmem, rfl⟩
  cases hopen : σ.main.ended with
  | true => exact alone_sendErr hk hm hopen (Or.inr (Or.inr hbk))
  | false =>
    cases hh : σ.lock.holder with
    | some t =>
      refine (alone_holder h hh).mono fun u hu => ?_
      rw [hh] at hu
      exact hu.imp_right Or.inl
    | none =>
      by_cases hs : σ.main = .received
      · refine alone_lock (t := .main) ?_ (decide_eq_true hs) (Or.inl rfl)
        rw [FifoMutex.holder_eq_none.mp hh]
        exact List.not_mem_nil
      · exact alone_main h.toWired hopen hs (fun _ => queue_ne_nil hb) (Or.inl rfl)

/-- A downloader that is not over has something to do when nobody holds the lock
and nobody is blocked, or it waits for its peer. -/
theorem alone_or_onStream (hw : σ.Wired) (hh : σ.lock.holder = none) (hb : σ.chan.blocked = [])
    (hk : σ.seeds[k]? = some s) (hlive : s.phase.gone = false) :
    (σ.CanMoveAlone su fun t => t = .seed k) ∨ s.phase.onStream = true := by
  have hfree : .seed k ∉ σ.lock.queue := by
    rw [FifoMutex.holder_eq_none.mp hh]
    exact List.not_mem_nil
  have hnb : ¬ σ.Blocked (.seed k) := fun h => blocked_ne_nil h hb
  have hlock : s.phase.wantsLock = true → σ.CanMoveAlone su fun t => t = .seed k := fun hwant =>
    alone_lock hfree ((wantsLock_seed hk).trans hwant) rfl
  have hsend : ∀ m, s.message k = some m → σ.CanMoveAlone su fun t => t = .seed k := by
    intro m hm
    cases hopen : σ.main.ended with
    | true => exact alone_sendErr hk hm hopen rfl
    | false => exact alone_send hk hm hopen hnb rfl
  cases hph : s.phase with
  | loopHead | complete | pick => exact Or.inl (hlock (by rw [hph]; rfl))
  | select | request | start => exact Or.inr rfl
  | sending => exact Or.inl (hsend _ (message_of_sending hph))
  | leaving => exact Or.inl (hsend _ (message_of_leaving hph))
  | sent =>
    have hhold := hw.keeps k s hk (by rw [hph]; rfl)
    rw [hh] at hhold
    cases hhold
  | ended | panicked => rw [hph] at hlive; cases hlive

/-- Who waits for its peer moves on when the peer lets it. -/
theorem canMove_onStream (hk : σ.seeds[k]? = some s) (hs : s.phase.onStream = true) :
    σ.CanMove su fun t => t = .seed k := by
  cases hph : s.phase with
  | select =>
    exact ⟨.seed k (.keepAlive true), _, rfl,
      step_free hk rfl (by simp only [seedStep, hph]; rfl)⟩
  | request =>
    exact ⟨.seed k (.request s.pendingPieces.keys none), _, rfl,
      step_free hk rfl (by simp only [seedStep, hph]; rw [if_pos (List.Perm.refl _)])⟩
  | start =>
    exact ⟨.seed k (.start none), _, rfl, step_free hk rfl (by simp only [seedStep, hph]; rfl)⟩
  | loopHead | complete | pick | sending | leaving | sent | ended | panicked =>
    rw [hph] at hs
    cases hs

/-- The receive loop never waits for a message in vain. -/
theorem canMove_receiving (h : σ.Drained su) (hs : σ.main = .receiving) :
    σ.CanMove su fun _ => True := by
  cases hh : σ.lock.holder with
  | some t => exact (alone_holder h hh).canMove.mono fun _ _ => trivial
  | none =>
    by_cases hb : σ.chan.blocked = []
    · by_cases hq : σ.chan.queue = []
      · by_cases hgone : ∀ s ∈ σ.seeds, s.phase.gone = true
        · refine (alone_of (a := .recvClosed) trivial rfl ?_).canMove
          simp only [sysStep, hs]
          rw [if_pos ⟨hq, List.all_eq_true.mpr hgone⟩]
          rfl
        · -- a downloader that is not over has something to do
          simp only [not_forall] at hgone
          obtain ⟨s, hmem, hlive⟩ := hgone
          obtain ⟨k, hk⟩ := List.getElem?_of_mem hmem
          rcases alone_or_onStream h.toWired hh hb hk (Bool.eq_false_iff.mpr hlive) with
            halone | hstream
          · exact halone.canMove.mono fun _ _ => trivial
          · exact (canMove_onStream hk hstream).mono fun _ _ => trivial
      · exact (alone_recv h.toWired hs hq trivial).canMove
    · exact (alone_blocked h hb).canMove.mono fun _ _ => trivial

/-- As long as a blocked holder has the loop to wait for, somebody can always move. -/
theorem Sys.Drained.live (h : σ.Drained su) : σ.Live su where
  free := by
    intro ⟨hmain, k, hk, hb, _⟩
    exact h.drains _ hk hb (h.main (FifoMutex.mem_of_waiter hmain))
  lock := by
    intro hne
    obtain ⟨t, ht⟩ := List.exists_mem_of_ne_nil _ hne
    obtain ⟨u, hu⟩ := FifoMutex.holder_ne_none_of_waiter ht
    exact (alone_holder h hu).canMove
  send := fun hne => (alone_blocked h hne).canMove
  recv := canMove_receiving h

/-! ## The holder is never left behind -/

/-- A blocked task does not wait for the lock: if it is in the queue it holds it. -/
theorem Sys.Wired.blocked_holds (h : σ.Wired) {t : Task} (hq : t ∈ σ.lock.queue)
    (hb : σ.Blocked t) : σ.lock.holder = some t := by
  obtain ⟨m, hmem⟩ := mem_blocked hb
  obtain ⟨k, s, rfl, hk, hm⟩ := h.blocked t m hmem
  exact h.sending_holds hk hm hq

/-- Nobody in the queue of the lock is blocked but a holder the loop drains. -/
theorem Sys.Drained.drains_queued (h : σ.Drained su) {t : Task} (hq : t ∈ σ.lock.queue)
    (hb : σ.Blocked t) : σ.lock.holder = some t ∧ σ.main ≠ .received :=
  have hhold := h.toWired.blocked_holds hq hb
  ⟨hhold, h.drains t hhold hb⟩

theorem blocked_recv {j : Nat} {r : Chan.Received Task DownloaderMsg channelCapacity}
    (hr : σ.chan.recv j = some r) {t : Task} (h : t ∈ r.chan.blocked.map Prod.fst) :
    σ.Blocked t := ((Chan.recv_blocked hr).map _).subset h

/-- These moves of `File::download` do not lead behind a receive. -/
theorem MainMoves.phase_ne {phase : MainPhase} (h : MainMoves su σ a phase) :
    phase ≠ .received := by
  cases h <;> exact (nomatch ·)

theorem check_ne_received (σ : Sys) : σ.check su ≠ .received := by
  unfold Sys.check
  split <;> exact (nomatch ·)

/-- One step keeps a holder from being left behind by the loop, if it meets the
condition. -/
theorem drains_step (h : σ.Drained su) (hok : HolderDrains σ a)
    (hstep : sysStep su σ a = some σ') :
    ∀ t, σ'.lock.holder = some t → σ'.Blocked t → σ'.main ≠ .received := by
  have hw := h.toWired
  intro t ht hb
  cases change_of_step hstep with
  | main hm => exact hm.phase_ne
  | spawn hs hphase =>
    dsimp only
    rcases hphase with rfl | rfl <;> exact (nomatch ·)
  | lock hq hwant =>
    rcases FifoMutex.holder_acquire ht with hold | ⟨-, rfl⟩
    · exact h.drains t hold hb
    · -- a task that asks for the lock is not sending
      obtain ⟨m, hmem⟩ := mem_blocked hb
      obtain ⟨k, s, rfl, hk, hm⟩ := h.blocked t m hmem
      rw [wantsLock_seed hk, (message_keepsLock hm).1] at hwant
      cases hwant
  | finish hs hlock => exact check_ne_received σ
  | own hk hkind hlock he =>
    exact (h.drains_queued (mem_put_queue (FifoMutex.mem_of_holder ht)) hb).2
  | crash hk hs => exact (h.drains_queued (mem_put_queue (FifoMutex.mem_of_holder ht)) hb).2
  | @sendBlocked k s m hopen hk hm hnew hfull =>
    unfold Sys.Blocked at hb
    dsimp only at hb
    rw [(Chan.send_of_full hfull).2, List.map_append] at hb
    rcases List.mem_append.mp hb with hb | hb
    · exact h.drains t ht hb
    · obtain rfl := List.mem_singleton.mp hb
      exact hok ht hfull
  | @sendOk k s m hopen hk hm hnew hroom =>
    unfold Sys.Blocked Sys.put at hb
    dsimp only at hb
    rw [(Chan.send_of_not_full hroom).2] at hb
    have hq : t ∈ σ.lock.queue := mem_put_queue (b := σ.bitfield) (FifoMutex.mem_of_holder ht)
    exact (h.drains_queued hq hb).2
  | sendErr hclosed hk hm =>
    show σ.main ≠ _
    intro hs
    rw [hs] at hclosed
    cases hclosed
  | recv hs hr hadm =>
    rw [(handle_wires _).1] at ht
    unfold Sys.Blocked at hb
    rw [(handle_wires _).2] at hb
    have hsome := hok t ht (blocked_recv hr hb)
    rw [← Chan.recv_admitted_eq hr, hadm] at hsome
    cases hsome
  | recvAdmit hs hr hadm hk hm =>
    rw [(handle_wires _).1] at ht
    unfold Sys.Blocked at hb
    rw [(handle_wires _).2] at hb
    -- the holder that is blocked is the sender that was let in
    have hblocked := blocked_recv hr hb
    have hq : t ∈ σ.lock.queue := mem_put_queue (b := σ.bitfield) (FifoMutex.mem_of_holder ht)
    obtain ⟨hhold, -⟩ := h.drains_queued hq hblocked
    have hsome := hok t hhold hblocked
    rw [← Chan.recv_admitted_eq hr] at hsome
    obtain ⟨m', q, -, -, -, hout⟩ := Chan.recv_admitted hr hsome
    exact absurd hb (hout hw.blockedNodup)

/-- One step keeps the whole invariant, if it meets the condition. -/
theorem drained_step (h : σ.Drained su) (hok : HolderDrains σ a)
    (hstep : sysStep su σ a = some σ') : σ'.Drained su :=
  ⟨inv_step h.toInv hstep, wired_step h.toWired hstep, drains_step h hok hstep⟩

theorem drained_new (su : Setup) : (Sys.new su).Drained su :=
  ⟨inv_new su, wired_new su, fun _ ht => by cases ht⟩

/-- **No deadlock.** In every run in which no piece finds the queue full while
the receive loop is between a receive and its lock, and a receive lets the
holder in when it is blocked, the loop and the holder never wait for each other,
and whoever waits has somebody who can move. -/
theorem deadlock_free (su : Setup) (acts : List Action)
    (hok : AllSteps (sysStep su) HolderDrains (Sys.new su) acts) :
    AllStates (sysStep su) (Sys.Live su) (Sys.new su) acts :=
  (allStates_of_invariant (fun _ _ _ h hok hs => drained_step h hok hs) (drained_new su) hok).mono
    fun _ h => h.live

/-! ## Once they wait, they wait for ever -/

/-- A loop that received a message while the holder is blocked has only the
deadlock ahead. -/
theorem deadlock_of_left_behind (hs : σ.main = .received)
    (hk : σ.lock.holder = some (.seed k)) (hb : σ.Blocked (.seed k)) :
    σ.Deadlocked ∨ ∃ σ', sysStep su σ (.lock .main) = some σ' ∧ σ'.Deadlocked := by
  have hfull : σ.chan.Full := σ.chan.blocked_full (blocked_ne_nil hb)
  by_cases hq : .main ∈ σ.lock.queue
  · refine Or.inl ⟨(FifoMutex.holder_or_waiter hq).resolve_left ?_, k, hk, hb, hfull⟩
    rw [hk]
    exact (nomatch ·)
  · refine Or.inr ⟨_, if_pos ⟨hq, decide_eq_true hs⟩, ?_⟩
    exact ⟨FifoMutex.waiter_acquire_of_some hk, k, FifoMutex.holder_acquire_of_some hk, hb, hfull⟩

/-- A downloader that does not hold the lock moves on, and who waits goes on waiting. -/
theorem Sys.Deadlocked.put (h : σ.Deadlocked) {j : Nat} {b : Bitfield} {s' : SeedDownloader}
    (hj : σ.lock.holder ≠ some (.seed j)) : (σ.put j b s').Deadlocked := by
  obtain ⟨hmain, k, hk, hb, hfull⟩ := h
  refine ⟨?_, k, ?_, hb, hfull⟩
  · rw [put_holder_ne hj]
    exact hmain
  · rw [put_holder_ne hj]
    exact hk

/-- A deadlock does not depend on the other tasks. -/
theorem deadlocked_step (hw : σ.Wired) (h : σ.Deadlocked) (hstep : sysStep su σ a = some σ') :
    σ'.Deadlocked := by
  have ⟨hmain, k, hk, hb, hfull⟩ := h
  have hs := hw.main (FifoMutex.mem_of_waiter hmain)
  cases change_of_step hstep with
  | main hm => exact absurd hs hm.not_received
  | spawn hs' => rw [hs] at hs'; cases hs'
  | @lock t hq hwant =>
    refine ⟨?_, k, FifoMutex.holder_acquire_of_some hk, hb, hfull⟩
    exact FifoMutex.waiter_acquire hmain
  | finish hs' hlock => rw [hk] at hlock; cases hlock
  | @own j s s' b hj hkind hlock he =>
    have hjk : σ.lock.holder ≠ some (.seed j) := by
      intro hhold
      obtain rfl := Task.seed.inj (Option.some.inj (hk.symm.trans hhold))
      obtain ⟨m, hm⟩ := hw.message hj hb
      rw [he.message_none hkind] at hm
      cases hm
    exact h.put hjk
  | @crash j s hj hs' =>
    -- the holder is blocked, so it is not the one that reads from its peer
    have hjk : σ.lock.holder ≠ some (.seed j) := fun hhold =>
      (hw.selecting hj hs').1 (FifoMutex.mem_of_holder hhold)
    exact h.put hjk
  | @sendBlocked j s m hopen hj hm hnew hfull' =>
    obtain ⟨hqueue, hbl⟩ := Chan.send_of_full (t := Task.seed j) (m := m) hfull
    refine ⟨hmain, k, hk, ?_, ?_⟩
    · unfold Sys.Blocked
      dsimp only
      rw [hbl, List.map_append]
      exact List.mem_append_left _ hb
    · unfold Chan.Full
      dsimp only
      rw [hqueue]
      exact hfull
  | sendOk hopen hj hm hnew hroom => exact absurd hfull hroom
  | sendErr hclosed => rw [hs] at hclosed; cases hclosed
  | recv hs' => rw [hs] at hs'; cases hs'
  | recvAdmit hs' => rw [hs] at hs'; cases hs'

/-- The loop and the holder never take another step. -/
theorem deadlock_permanent (su : Setup) {acts : List Action} (hw : σ.Wired) (h : σ.Deadlocked)
    (hrun : run (sysStep su) σ acts = some σ') : σ'.Deadlocked :=
  (run_invariant (P := fun σ => σ.Wired ∧ σ.Deadlocked)
    (fun _ _ _ h hs => ⟨wired_step h.1 hs, deadlocked_step h.1 h.2 hs⟩) ⟨hw, h⟩ hrun).2

/-! ## Nine pieces -/

/-- A download of nine pieces of one byte, each 1, with one peer. -/
def ninePieces : Setup where
  cfg :=
    { profile := .dev
      torrent :=
        { info :=
            { name := "nine"
              pieceLength := 1
              pieces := List.replicate 9 (sha1Byte [1])
              downloadType := .singleFile 9 }
          length := 9
          len_eq := rfl
          length_lt := by decide
          pieceLength_pos := by decide
          pieceLength_lt := by decide }
      sha1 := sha1Byte }
  id := List.replicate 20 0
  peers := 1
  limit := maxSeeds

/-- Five pieces fill the queue before the receive loop takes the first. -/
def fullQueue : List Action :=
  [.pickSeeds, .peer true, .picked] ++ Action.join 0 ++ Action.fetch 0 0 1 ++ Action.fetch 0 1 1 ++
    Action.fetch 0 2 1 ++ Action.fetch 0 3 1 ++ Action.fetch 0 4 1 ++ [.recv 0]

/-- Two more pieces before the loop has the lock, and it never gets it. -/
theorem loop_and_holder_deadlock :
    ¬ AllStates (sysStep ninePieces) (fun σ => ¬ σ.Deadlocked) (Sys.new ninePieces)
      (fullQueue ++ Action.fetch 0 5 1 ++ Action.assemble 0 6 1 ++ [.send 0, .lock .main]) := by
  decide +kernel

/-- The run towards the deadlock, with the lock taken before the sixth piece is
sent. -/
theorem deadlock_free_nine :
    AllStates (sysStep ninePieces) (Sys.Live ninePieces) (Sys.new ninePieces)
      (fullQueue ++ [.lock .main, .finish] ++ Action.fetch 0 5 1 ++ Action.assemble 0 6 1 ++
        [.send 0, .recv 0, .lock .main, .seed 0 .release, .finish]) :=
  deadlock_free ninePieces _ (by decide +kernel)

end Deadlock

end BitTorrent
