import BitTorrent.Download.System

/-!
# What a step of the download can do

`Change` is the inversion of `sysStep`: one constructor for each way a step can
go, with everything the code tested on the way. `SeedsChange` is what is left of
it when only the downloaders and the bitfield are looked at.

`Sys.Inv` is what every task knows in every run, whatever the peers send.
`Sys.Wired` says how the tasks, the lock and the channel hang together: who
sends a piece holds the lock, who waits for the lock is about to take it, and
who is blocked in the channel is sending what the channel has of it.

What a downloader does by itself is told by its `Effect`, and what `main` does
without touching anything else by `MainMoves`. So an invariant of the downloaders is
proved from `Effect` once, for one task, and holds of the whole system by
`SeedsChange.all`: a new downloader has it, each of its steps keeps it, and no step
of anybody else touches it.

The later files that are about messages, or about who waits for whom, go by `Change`
itself.
-/

namespace BitTorrent

/-- The steps of the receive loop by itself, with the phase they lead to. -/
inductive MainMoves (su : Setup) (σ : Sys) : Action → MainPhase → Prop
  | pickSeeds (hs : σ.main = .starting) (hid : su.id.length = 20) :
      MainMoves su σ .pickSeeds (.picking su.peers)
  | badId (hs : σ.main = .starting) (hid : su.id.length ≠ 20) : MainMoves su σ .pickSeeds .failed
  | refused {peers : Nat} (hs : σ.main = .picking (peers + 1)) :
      MainMoves su σ (.peer false) (.picking peers)
  | panicked {peers : Nat} (hs : σ.main = .picking (peers + 1)) :
      MainMoves su σ .peerPanic .panicked
  | picked (hs : σ.main = .picking 0) : MainMoves su σ .picked .receiving
  | closed (hs : σ.main = .receiving) (hq : σ.chan.queue = [])
      (hgone : ∀ s ∈ σ.seeds, s.phase.gone = true) : MainMoves su σ .recvClosed .failed

/-- The task after its message went through, and after a send that failed. -/
def SeedDownloader.afterSend (s : SeedDownloader) : SeedDownloader :=
  s.goto (if s.phase.keepsLock then .sent else .ended)

/-- The task after a send to a receiver that is gone: an error of `handle_msg`, or
the end. -/
def SeedDownloader.afterErr (s : SeedDownloader) : SeedDownloader :=
  s.goto (if s.phase.keepsLock then .loopHead else .ended)

/-- What a step of the download can do. -/
inductive Change (su : Setup) (σ : Sys) : Action → Sys → Prop
  | main {a : Action} {phase : MainPhase} (h : MainMoves su σ a phase) :
      Change su σ a { σ with main := phase }
  | spawn {peers : Nat} {phase : MainPhase} (hs : σ.main = .picking (peers + 1))
      (hphase : phase = .receiving ∨ phase = .picking peers) :
      Change su σ (.peer true) { σ with seeds := σ.seeds ++ [.new], main := phase }
  | lock {t : Task} (hq : t ∉ σ.lock.queue) (hw : σ.wantsLock t = true) :
      Change su σ (.lock t) { σ with lock := σ.lock.acquire t }
  | finish (hs : σ.main = .received) (hlock : σ.lock.holder = some .main) :
      Change su σ .finish { σ with lock := σ.lock.release, main := σ.check su }
  | own {k : Nat} {s s' : SeedDownloader} {a : SeedAct} (hk : σ.seeds[k]? = some s)
      (hkind : a.kind ≠ .channel) (hlock : a.kind = .locked → σ.lock.holder = some (.seed k))
      (he : Effect su.cfg σ.bitfield s a s') :
      Change su σ (.seed k a) (σ.put k (σ.bitfield.after (s.bitOp a)) s')
  | crash {k : Nat} {s : SeedDownloader} (hk : σ.seeds[k]? = some s) (hs : s.phase = .select) :
      Change su σ (.readPanic k) (σ.put k σ.bitfield s.crash)
  | sendBlocked {k : Nat} {s : SeedDownloader} {m : DownloaderMsg} (hopen : σ.main.ended = false)
      (hk : σ.seeds[k]? = some s) (hm : s.message k = some m) (hnew : ¬ σ.Blocked (.seed k))
      (hfull : σ.chan.Full) :
      Change su σ (.send k) { σ with chan := σ.chan.send (.seed k) m }
  | sendOk {k : Nat} {s : SeedDownloader} {m : DownloaderMsg} (hopen : σ.main.ended = false)
      (hk : σ.seeds[k]? = some s) (hm : s.message k = some m) (hnew : ¬ σ.Blocked (.seed k))
      (hroom : ¬ σ.chan.Full) :
      Change su σ (.send k)
        (Sys.put { σ with chan := σ.chan.send (.seed k) m } k σ.bitfield s.afterSend)
  | sendErr {k : Nat} {s : SeedDownloader} {m : DownloaderMsg} (hclosed : σ.main.ended = true)
      (hk : σ.seeds[k]? = some s) (hm : s.message k = some m) :
      Change su σ (.sendErr k)
        (Sys.put { σ with chan := σ.chan.cancel (.seed k) } k σ.bitfield s.afterErr)
  | recv {j : Nat} {r : Chan.Received Task DownloaderMsg channelCapacity}
      (hs : σ.main = .receiving) (hr : σ.chan.recv j = some r) (hadm : r.admitted = none) :
      Change su σ (.recv j) (Sys.handle su { σ with chan := r.chan } r.msg)
  | recvAdmit {j : Nat} {r : Chan.Received Task DownloaderMsg channelCapacity} {k : Nat}
      {s : SeedDownloader} {m : DownloaderMsg} (hs : σ.main = .receiving)
      (hr : σ.chan.recv j = some r) (hadm : r.admitted = some (.seed k))
      (hk : σ.seeds[k]? = some s) (hm : s.message k = some m) :
      Change su σ (.recv j)
        (Sys.handle su (Sys.put { σ with chan := r.chan } k σ.bitfield s.afterSend) r.msg)

section Inversion

variable {su : Setup} {σ σ' : Sys} {k : Nat}

theorem moveSeed_eq_some {a : SeedAct} (h : σ.moveSeed su k a = some σ') :
    ∃ s out, σ.seeds[k]? = some s ∧ seedStep su.cfg σ.bitfield s a = some out ∧
      σ' = σ.put k out.bitfield out.seed := by
  obtain ⟨s, hk, h⟩ := Option.bind_eq_some_iff.mp h
  obtain ⟨out, hout, h⟩ := Option.bind_eq_some_iff.mp h
  exact ⟨s, out, hk, hout, (Option.some.inj h).symm⟩

/-- A step of a downloader that can be taken. -/
theorem moveSeed_of_step {a : SeedAct} {s : SeedDownloader} {out : SeedOut}
    (hk : σ.seeds[k]? = some s) (hout : seedStep su.cfg σ.bitfield s a = some out) :
    σ.moveSeed su k a = some (σ.put k out.bitfield out.seed) := by
  unfold Sys.moveSeed
  rw [hk]
  show (seedStep su.cfg σ.bitfield s a).bind _ = _
  rw [hout]
  rfl

/-- A task that sends can be told that its message went through. -/
theorem seedStep_sendOk (cfg : Config) (b : Bitfield) {s : SeedDownloader} {m : DownloaderMsg}
    (hm : s.message k = some m) :
    seedStep cfg b s .sendOk = some { bitfield := b, seed := s.afterSend } := by
  unfold SeedDownloader.message at hm
  unfold seedStep SeedDownloader.afterSend
  split at hm
  next hs => rw [hs]; rfl
  next hs => rw [hs]; rfl
  next => cases hm

theorem message_of_sending {s : SeedDownloader} {l i : Nat} {bytes : List UInt8}
    (hs : s.phase = .sending i l bytes) : s.message k = some (.piece i l bytes) := by
  unfold SeedDownloader.message
  rw [hs]

theorem message_of_leaving {s : SeedDownloader} (hs : s.phase = .leaving) :
    s.message k = some (.disconnect k) := by
  unfold SeedDownloader.message
  rw [hs]

/-- Whose send ends was sending. -/
theorem message_of_seedStep {cfg : Config} {b : Bitfield} {s : SeedDownloader} {a : SeedAct}
    {out : SeedOut} (ha : a = .sendOk ∨ a = .sendErr) (h : seedStep cfg b s a = some out) :
    ∃ m, s.message k = some m := by
  rcases ha with rfl | rfl
  · simp only [seedStep] at h
    split at h
    next hs => exact ⟨_, message_of_sending hs⟩
    next hs => exact ⟨_, message_of_leaving hs⟩
    next => cases h
  · simp only [seedStep] at h
    split at h
    next hs => exact ⟨_, message_of_sending hs⟩
    next hs => exact ⟨_, message_of_leaving hs⟩
    next => cases h

/-- A send that returns moves its task behind it. -/
theorem moveSeed_sendOk (h : σ.moveSeed su k .sendOk = some σ') :
    ∃ s m, σ.seeds[k]? = some s ∧ s.message k = some m ∧ σ' = σ.put k σ.bitfield s.afterSend := by
  obtain ⟨s, out, hk, hout, rfl⟩ := moveSeed_eq_some h
  obtain ⟨m, hm⟩ := message_of_seedStep (k := k) (Or.inl rfl) hout
  rw [seedStep_sendOk _ _ hm] at hout
  obtain rfl := Option.some.inj hout
  exact ⟨s, m, hk, hm, rfl⟩

/-- And that its send failed. -/
theorem seedStep_sendErr (cfg : Config) (b : Bitfield) {s : SeedDownloader} {m : DownloaderMsg}
    (hm : s.message k = some m) :
    ∃ e, seedStep cfg b s .sendErr = some { bitfield := b, seed := s.afterErr, error := e } := by
  unfold SeedDownloader.message at hm
  unfold seedStep SeedDownloader.afterErr
  split at hm
  next hs => rw [hs]; exact ⟨_, rfl⟩
  next hs => rw [hs]; exact ⟨_, rfl⟩
  next => cases hm

/-- A send that fails moves its task to the error. -/
theorem moveSeed_sendErr (h : σ.moveSeed su k .sendErr = some σ') :
    ∃ s m, σ.seeds[k]? = some s ∧ s.message k = some m ∧ σ' = σ.put k σ.bitfield s.afterErr := by
  obtain ⟨s, out, hk, hout, rfl⟩ := moveSeed_eq_some h
  obtain ⟨m, hm⟩ := message_of_seedStep (k := k) (Or.inr rfl) hout
  obtain ⟨e, he⟩ := seedStep_sendErr su.cfg σ.bitfield hm
  rw [he] at hout
  obtain rfl := Option.some.inj hout
  exact ⟨s, m, hk, hm, rfl⟩

theorem change_of_own {a : SeedAct} (hkind : a.kind ≠ .channel)
    (hlock : a.kind = .locked → σ.lock.holder = some (.seed k))
    (h : σ.moveSeed su k a = some σ') : Change su σ (.seed k a) σ' := by
  obtain ⟨s, out, hk, hout, rfl⟩ := moveSeed_eq_some h
  obtain ⟨he, hb⟩ := effect_of_step hout
  rw [hb]
  exact .own hk hkind hlock he

/-- A receive is such a change. -/
theorem change_of_recv {j : Nat} (hs : σ.main = .receiving) (h : σ.receive su j = some σ') :
    Change su σ (.recv j) σ' := by
  obtain ⟨r, hr, h⟩ := Option.bind_eq_some_iff.mp h
  dsimp only at h
  split at h
  next k hadm =>
    obtain ⟨σ₁, hmove, rfl⟩ := Option.map_eq_some_iff.mp h
    obtain ⟨s, m, hk, hm, rfl⟩ := moveSeed_sendOk hmove
    exact .recvAdmit hs hr hadm hk hm
  next => cases h
  next hadm =>
    obtain rfl := Option.some.inj h
    exact .recv hs hr hadm

/-- A send is such a change. -/
theorem change_of_send (hopen : σ.main.ended = false) (h : σ.send su k = some σ') :
    Change su σ (.send k) σ' := by
  obtain ⟨s, hk, h⟩ := Option.bind_eq_some_iff.mp h
  obtain ⟨m, hm, h⟩ := Option.bind_eq_some_iff.mp h
  split at h
  next => cases h
  next hnew =>
    split at h
    next hfull =>
      obtain rfl := Option.some.inj h
      exact .sendBlocked hopen hk hm hnew hfull
    next hroom =>
      obtain ⟨s', m', hk', hm', rfl⟩ := moveSeed_sendOk h
      obtain rfl := Option.some.inj (hk.symm.trans hk')
      exact .sendOk hopen hk hm hnew hroom

/-- **Inversion.** What a step does to the system. -/
theorem change_of_step {a : Action} (h : sysStep su σ a = some σ') : Change su σ a σ' := by
  cases a with
  | pickSeeds =>
    simp only [sysStep] at h
    split at h
    next hs =>
      obtain rfl := Option.some.inj h
      split
      next hid => exact .main (.pickSeeds hs hid)
      next hid => exact .main (.badId hs hid)
    next => cases h
  | peer isSeed =>
    simp only [sysStep] at h
    split at h
    next peers hs =>
      cases isSeed with
      | true =>
        rw [if_pos rfl] at h
        obtain rfl := Option.some.inj h
        refine .spawn hs ?_
        split
        · exact Or.inl rfl
        · exact Or.inr rfl
      | false =>
        obtain rfl := Option.some.inj h
        exact .main (.refused hs)
    next => cases h
  | peerPanic =>
    simp only [sysStep] at h
    split at h
    next hs => obtain rfl := Option.some.inj h; exact .main (.panicked hs)
    next => cases h
  | picked =>
    simp only [sysStep] at h
    split at h
    next hs => obtain rfl := Option.some.inj h; exact .main (.picked hs)
    next => cases h
  | recv j =>
    simp only [sysStep] at h
    split at h
    next hs => exact change_of_recv hs h
    next => cases h
  | recvClosed =>
    simp only [sysStep] at h
    split at h
    next hs =>
      split at h
      next hc =>
        obtain rfl := Option.some.inj h
        exact .main (.closed hs hc.1 (List.all_eq_true.mp hc.2))
      next => cases h
    next => cases h
  | lock t =>
    simp only [sysStep] at h
    split at h
    next hc => obtain rfl := Option.some.inj h; exact .lock hc.1 hc.2
    next => cases h
  | finish =>
    simp only [sysStep] at h
    split at h
    next hs =>
      split at h
      next hlock => obtain rfl := Option.some.inj h; exact .finish hs hlock
      next => cases h
    next => cases h
  -- the steps under the mutex need its holder, the others are free
  | seed k a =>
    simp only [sysStep] at h
    split at h
    next hkind =>
      split at h
      next hlock => exact change_of_own (by rw [hkind]; exact (nomatch ·)) (fun _ => hlock) h
      next => cases h
    next hkind =>
      exact change_of_own (by rw [hkind]; exact (nomatch ·)) (by rw [hkind]; exact (nomatch ·)) h
    next => cases h
  | readPanic k =>
    simp only [sysStep] at h
    split at h
    next s hk =>
      split at h
      next hs => obtain rfl := Option.some.inj h; exact .crash hk hs
      next => cases h
    next => cases h
  | send k =>
    simp only [sysStep] at h
    split at h
    next => cases h
    next hopen => exact change_of_send (Bool.eq_false_iff.mpr hopen) h
  | sendErr k =>
    simp only [sysStep] at h
    split at h
    next hclosed =>
      obtain ⟨s, m, hk, hm, rfl⟩ := moveSeed_sendErr h
      exact .sendErr hclosed hk hm
    next => cases h

end Inversion

/-! ## The downloaders and the bitfield -/

/-- What a step does to the downloaders and to the bitfield. -/
inductive SeedsChange (cfg : Config) (σ : Sys) (act : Action) (σ' : Sys) : Prop
  | stay (hs : σ'.seeds = σ.seeds) (hb : σ'.bitfield = σ.bitfield)
  | spawn (hs : σ'.seeds = σ.seeds ++ [.new]) (hb : σ'.bitfield = σ.bitfield)
  | move {k : Nat} {s s' : SeedDownloader} {a : SeedAct} (hk : σ.seeds[k]? = some s)
      (he : Effect cfg σ.bitfield s a s') (ha : a.kind = .channel ∨ act = .seed k a)
      (hs : σ'.seeds = σ.seeds.set k s') (hb : σ'.bitfield = σ.bitfield.after (s.bitOp a))
  | crash {k : Nat} {s : SeedDownloader} (hk : σ.seeds[k]? = some s) (hselect : s.phase = .select)
      (hs : σ'.seeds = σ.seeds.set k s.crash) (hb : σ'.bitfield = σ.bitfield)

/-- What every run keeps: each task knows its pieces. -/
structure Sys.Inv (su : Setup) (σ : Sys) : Prop where
  bitfield : Bitfield.Inv su.cfg.torrent.numPieces σ.bitfield
  known : ∀ (k : Nat) s, σ.seeds[k]? = some s → s.Alive → Known su.cfg s

section Seeds

variable {su : Setup} {σ σ' : Sys} {act : Action} {k : Nat}

/-- The downloaders when one of them took a step. -/
theorem seeds_set {k j : Nat} {s t : SeedDownloader} (h : (σ.seeds.set k s)[j]? = some t) :
    (j = k ∧ t = s) ∨ (j ≠ k ∧ σ.seeds[j]? = some t) := by
  by_cases hjk : j = k
  · subst hjk
    rw [List.getElem?_set, if_pos rfl] at h
    split at h
    next => exact Or.inl ⟨rfl, (Option.some.inj h).symm⟩
    next => cases h
  · rw [List.getElem?_set_ne (Ne.symm hjk)] at h
    exact Or.inr ⟨hjk, h⟩

/-- The downloaders with a new one. -/
theorem seeds_spawn {j : Nat} {t : SeedDownloader}
    (h : (σ.seeds ++ [SeedDownloader.new])[j]? = some t) :
    (j = σ.seeds.length ∧ t = .new) ∨ σ.seeds[j]? = some t := by
  rcases Nat.lt_or_ge j σ.seeds.length with hlt | hge
  · rw [List.getElem?_append_left hlt] at h
    exact Or.inr h
  · rw [List.getElem?_append_right hge] at h
    obtain ⟨hlt, heq⟩ := List.getElem?_eq_some_iff.mp h
    rw [List.length_singleton] at hlt
    refine Or.inl ⟨by omega, ?_⟩
    rw [← heq, List.getElem_singleton]

/-- A message that is handled concerns no downloader. -/
theorem handle_seeds (m : DownloaderMsg) :
    (σ.handle su m).seeds = σ.seeds ∧ (σ.handle su m).bitfield = σ.bitfield := by
  unfold Sys.handle
  split
  · dsimp only
    split <;> exact ⟨rfl, rfl⟩
  · exact ⟨rfl, rfl⟩

/-- A message that is handled concerns neither the lock nor the channel. -/
theorem handle_wires (m : DownloaderMsg) :
    (σ.handle su m).lock = σ.lock ∧ (σ.handle su m).chan = σ.chan := by
  unfold Sys.handle
  split
  · dsimp only
    split <;> exact ⟨rfl, rfl⟩
  · exact ⟨rfl, rfl⟩

/-- A task is told about its message as by a step of its own. -/
theorem effect_afterSend {cfg : Config} {b : Bitfield} {s : SeedDownloader} {m : DownloaderMsg}
    (hm : s.message k = some m) : Effect cfg b s .sendOk s.afterSend :=
  (effect_of_step (seedStep_sendOk cfg b hm)).1

theorem effect_afterErr {cfg : Config} {b : Bitfield} {s : SeedDownloader} {m : DownloaderMsg}
    (hm : s.message k = some m) : Effect cfg b s .sendErr s.afterErr := by
  obtain ⟨e, he⟩ := seedStep_sendErr cfg b hm
  exact (effect_of_step he).1

/-- What a step of the system does to the downloaders. -/
theorem Change.seeds (h : Change su σ act σ') : SeedsChange su.cfg σ act σ' := by
  cases h with
  | main hm => exact .stay rfl rfl
  | spawn hs hphase => exact .spawn rfl rfl
  | lock hq hw => exact .stay rfl rfl
  | finish hs hlock => exact .stay rfl rfl
  | own hk hkind hlock he => exact .move hk he (Or.inr rfl) rfl rfl
  | crash hk hs => exact .crash hk hs rfl rfl
  | sendBlocked hopen hk hm hnew hfull => exact .stay rfl rfl
  | sendOk hopen hk hm hnew hroom =>
    exact .move hk (effect_afterSend hm) (Or.inl rfl) rfl rfl
  | sendErr hclosed hk hm => exact .move hk (effect_afterErr hm) (Or.inl rfl) rfl rfl
  | recv hs hr hadm => exact .stay (handle_seeds _).1 (handle_seeds _).2
  | recvAdmit hs hr hadm hk hm =>
    exact .move hk (effect_afterSend hm) (Or.inl rfl) (handle_seeds _).1 (handle_seeds _).2

/-- What a new downloader has, and each step and the end of a downloader keep, all
of them have. -/
theorem SeedsChange.all {cfg : Config} {P : SeedDownloader → Prop}
    (h : SeedsChange cfg σ act σ') (hP : ∀ (k : Nat) s, σ.seeds[k]? = some s → P s)
    (hnew : P .new)
    (hstep : ∀ (k : Nat) s s' a, σ.seeds[k]? = some s → Effect cfg σ.bitfield s a s' →
      a.kind = .channel ∨ act = .seed k a → P s → P s')
    (hcrash : ∀ s, P s → P s.crash) : ∀ (k : Nat) s, σ'.seeds[k]? = some s → P s := by
  intro j t hj
  cases h with
  | stay hs hb => exact hP j t (hs ▸ hj)
  | spawn hs hb =>
    rw [hs] at hj
    rcases seeds_spawn hj with ⟨-, rfl⟩ | hj
    · exact hnew
    · exact hP j t hj
  | move hk he ha hs hb =>
    rw [hs] at hj
    rcases seeds_set hj with ⟨rfl, rfl⟩ | ⟨-, hj⟩
    · exact hstep j _ _ _ hk he ha (hP j _ hk)
    · exact hP j t hj
  | crash hk hselect hs hb =>
    rw [hs] at hj
    rcases seeds_set hj with ⟨rfl, rfl⟩ | ⟨-, hj⟩
    · exact hcrash _ (hP j _ hk)
    · exact hP j t hj

theorem crash_not_alive (s : SeedDownloader) : ¬ s.crash.Alive := fun hlive => hlive .decode rfl

theorem inv_new (su : Setup) : (Sys.new su).Inv su where
  bitfield := Bitfield.inv_zero _
  known := fun k s hk => by simp [Sys.new] at hk

/-- Such a change keeps what every task knows. -/
theorem SeedsChange.inv (h : SeedsChange su.cfg σ act σ') (hi : σ.Inv su) : σ'.Inv su where
  bitfield := by
    cases h with
    | stay hs hb => rw [hb]; exact hi.bitfield
    | spawn hs hb => rw [hb]; exact hi.bitfield
    | move hk he ha hs hb =>
      rw [hb]
      exact Bitfield.inv_after hi.bitfield su.cfg.torrent.numPieces_lt fun o ho =>
        (hi.known _ _ hk he.alive).bitOp_inRange ho
    | crash hk hselect hs hb => rw [hb]; exact hi.bitfield
  known := h.all (P := fun s => s.Alive → Known su.cfg s) hi.known (fun _ => known_new _)
    (fun _ _ _ _ _ he _ hk => known_step hi.bitfield (hk he.alive) he)
    fun s _ hlive => absurd hlive (crash_not_alive s)

theorem inv_step (hi : σ.Inv su) (h : sysStep su σ act = some σ') : σ'.Inv su :=
  (change_of_step h).seeds.inv hi

/-- The calls on the bitfield never spin, so a task with the lock can make its
step. -/
theorem setPiece_returns {cfg : Config} {b : Bitfield} {s : SeedDownloader} {i : Nat}
    (hb : Bitfield.Inv cfg.torrent.numPieces b) (hk : Known cfg s) (hs : s.phase = .complete i) :
    ∃ out, seedStep cfg b s .setPiece = some out := by
  have hph := hk.phase
  rw [hs] at hph
  obtain ⟨dl, hdl⟩ := hph
  obtain ⟨b', -, -, -, heq⟩ := Bitfield.set_spec hb cfg.torrent.numPieces_lt (hk.piece i dl hdl).lt
  simp only [seedStep, hs, SeedDownloader.setPiece, heq, hdl]
  split
  next h => split at h <;> cases h
  next => exact ⟨_, rfl⟩
  next => split <;> exact ⟨_, rfl⟩

/-- A pick never gets stuck. -/
theorem pick_returns {cfg : Config} {b : Bitfield} {s : SeedDownloader}
    (hb : Bitfield.Inv cfg.torrent.numPieces b) (hs : s.phase = .pick) :
    ∃ out, seedStep cfg b s .pick = some out := by
  simp only [seedStep, hs, SeedDownloader.pickNext]
  rcases Bitfield.pickPiece_spec hb cfg.torrent.numPieces_lt with ⟨-, heq⟩ | ⟨m, -, -, -, heq⟩
  · rw [heq]
    exact ⟨_, rfl⟩
  · rw [heq]
    dsimp only
    split
    · exact ⟨_, rfl⟩
    · split <;> exact ⟨_, rfl⟩

/-- A piece that is being completed is the one of the phase, and pending. -/
theorem completing_phase {s : SeedDownloader} {i : Nat} {dl : PieceDownload}
    (h : s.completing = some (i, dl)) :
    s.phase = .complete i ∧ s.pendingPieces[i]? = some dl := by
  unfold SeedDownloader.completing at h
  split at h
  next j hs =>
    obtain ⟨dl', hdl, heq⟩ := Option.map_eq_some_iff.mp h
    obtain ⟨rfl, rfl⟩ := Prod.mk.inj heq
    exact ⟨hs, hdl⟩
  next => cases h

theorem sys_completing {i : Nat} {dl : PieceDownload} (h : σ.completing k = some (i, dl)) :
    ∃ s, σ.seeds[k]? = some s ∧ s.phase = .complete i ∧ s.pendingPieces[i]? = some dl := by
  obtain ⟨s, hk, hs⟩ := Option.bind_eq_some_iff.mp h
  exact ⟨s, hk, completing_phase hs⟩

theorem known_of_completing (hi : σ.Inv su) {i : Nat} {dl : PieceDownload}
    (h : σ.completing k = some (i, dl)) :
    PieceKnown su.cfg i dl := by
  obtain ⟨s, hk, hs, hdl⟩ := sys_completing h
  exact (hi.known k s hk fun e he => by rw [hs] at he; cases he).piece i dl hdl

/-- Pieces are only ever added to the bitfield. -/
theorem SeedsChange.owns (h : SeedsChange su.cfg σ act σ') (hi : σ.Inv su) {i : Nat}
    (hown : σ.bitfield.Owns i) : σ'.bitfield.Owns i := by
  cases h with
  | stay hs hb => rw [hb]; exact hown
  | spawn hs hb => rw [hb]; exact hown
  | move hk he ha hs hb =>
    rw [hb]
    exact Bitfield.owns_after hi.bitfield su.cfg.torrent.numPieces_lt (fun o ho =>
      (hi.known _ _ hk he.alive).bitOp_inRange ho) hown
  | crash hk hselect hs hb => rw [hb]; exact hown

/-- A piece that is owned after a step was owned, or was set by it. -/
theorem owns_of_step (hi : σ.Inv su) (h : sysStep su σ act = some σ') {i : Nat}
    (hown : σ'.bitfield.Owns i) : σ.bitfield.Owns i ∨
      ∃ k dl, act = .seed k .setPiece ∧ σ.completing k = some (i, dl) := by
  cases (change_of_step h).seeds with
  | stay hs hb => exact Or.inl (hb ▸ hown)
  | spawn hs hb => exact Or.inl (hb ▸ hown)
  | crash hk hselect hs hb => exact Or.inl (hb ▸ hown)
  | @move k s s' b hk he ha hs hb =>
    have hknown := hi.known k s hk he.alive
    rw [hb] at hown
    cases hop : s.bitOp b with
    | none => rw [hop] at hown; exact Or.inl hown
    | some op =>
      rw [hop] at hown
      rcases (Bitfield.owns_call hi.bitfield su.cfg.torrent.numPieces_lt
        (hknown.bitOp_inRange hop) i).mp hown with hold | rfl
      · exact Or.inl hold
      · -- only `setPiece` calls `set`, for the piece that is complete
        refine Or.inr ?_
        unfold SeedDownloader.bitOp at hop
        split at hop
        next =>
          split at hop
          next j hph =>
            obtain rfl := BitOp.set.inj (Option.some.inj hop)
            have hpending := hknown.phase
            rw [hph] at hpending
            obtain ⟨dl, hdl⟩ := hpending
            refine ⟨k, dl, ha.resolve_left (nomatch ·), ?_⟩
            unfold Sys.completing
            rw [hk]
            exact completing_eq hph hdl
          next => cases hop
        next => cases hop
        next => cases hop

end Seeds

/-! ## The lock and the channel -/

/-- How the tasks, the lock and the channel hang together: who keeps the lock holds
it, who is in its queue wants it or keeps it, and who is blocked is sending. -/
structure Sys.Wired (σ : Sys) : Prop where
  nodup : σ.lock.queue.Nodup
  main : .main ∈ σ.lock.queue → σ.main = .received
  keeps : ∀ (k : Nat) s, σ.seeds[k]? = some s → s.phase.keepsLock = true →
    σ.lock.holder = some (.seed k)
  queued : ∀ k, .seed k ∈ σ.lock.queue → ∃ s, σ.seeds[k]? = some s ∧
    (s.phase.wantsLock = true ∨ s.phase.keepsLock = true)
  blockedNodup : (σ.chan.blocked.map Prod.fst).Nodup
  blocked : ∀ t m, (t, m) ∈ σ.chan.blocked → ∃ k s, t = .seed k ∧ σ.seeds[k]? = some s ∧
    s.message k = some m

section Wired

variable {su : Setup} {σ σ' : Sys} {act : Action} {k : Nat} {s s' : SeedDownloader}

theorem wired_new (su : Setup) : (Sys.new su).Wired where
  nodup := List.nodup_nil
  main := fun h => by cases h
  keeps := fun k s hk => by simp [Sys.new] at hk
  queued := fun k h => by cases h
  blockedNodup := List.nodup_nil
  blocked := fun t m h => by cases h

theorem mem_blocked {c : Chan Task DownloaderMsg channelCapacity} {t : Task}
    (h : t ∈ c.blocked.map Prod.fst) : ∃ m, (t, m) ∈ c.blocked := by
  obtain ⟨⟨t', m⟩, hmem, rfl⟩ := List.mem_map.mp h
  exact ⟨m, hmem⟩

/-- A task that is blocked is sending. -/
theorem Sys.Wired.message (h : σ.Wired) (hk : σ.seeds[k]? = some s)
    (hb : σ.Blocked (.seed k)) : ∃ m, s.message k = some m := by
  obtain ⟨m, hmem⟩ := mem_blocked hb
  obtain ⟨j, s', hj, hk', hm⟩ := h.blocked _ m hmem
  obtain rfl := Task.seed.inj hj
  obtain rfl := Option.some.inj (hk.symm.trans hk')
  exact ⟨m, hm⟩

/-- A task that waits for the lock is about to take it. -/
theorem Sys.Wired.waiter (h : σ.Wired) (hk : σ.seeds[k]? = some s)
    (hq : .seed k ∈ σ.lock.queue) (hne : σ.lock.holder ≠ some (.seed k)) :
    s.phase.wantsLock = true := by
  obtain ⟨s', hk', hs⟩ := h.queued k hq
  obtain rfl := Option.some.inj (hk.symm.trans hk')
  exact hs.resolve_right fun hkeep => hne (h.keeps k _ hk hkeep)

/-- The lock while a message is sent: only a piece is sent with the lock held. -/
theorem message_keepsLock {m : DownloaderMsg} (hm : s.message k = some m) :
    s.phase.wantsLock = false ∧
      (s.phase.keepsLock = true ∨ s.phase = .leaving) := by
  unfold SeedDownloader.message at hm
  split at hm
  next hs => rw [hs]; exact ⟨rfl, Or.inl rfl⟩
  next hs => rw [hs]; exact ⟨rfl, Or.inr rfl⟩
  next => cases hm

theorem Sys.Wired.sending_holds (h : σ.Wired) (hk : σ.seeds[k]? = some s) {m : DownloaderMsg}
    (hm : s.message k = some m) (hq : .seed k ∈ σ.lock.queue) :
    σ.lock.holder = some (.seed k) := by
  by_contra hne
  have hw := h.waiter hk hq hne
  rw [(message_keepsLock hm).1] at hw
  cases hw

/-- A step by itself is not taken in the middle of a send. -/
theorem Effect.message_none {cfg : Config} {b : Bitfield} {a : SeedAct}
    (he : Effect cfg b s a s') (hkind : a.kind ≠ .channel) : s.message k = none := by
  unfold SeedDownloader.message
  cases he with
  | move hm =>
    cases hm with
    | sendOk | sendErr => exact absurd rfl hkind
    | leave hs ha => rcases ha with rfl | rfl <;> exact absurd rfl hkind
    | finish hs | listen hs | ignore hs | streamEnd hs | release hs | choked hs | pickNone hs
    | pickPending hs | pickNew hs => rw [hs]
  | choke hs | unchoke hs | orphan hs | block hs | valid hs | invalid hs | request hs
  | requestFailed hs | start hs | startFailed hs => rw [hs]
  | panic hcause hs' =>
    cases hcause with
    | remaining hs | choke hs | remainingBlocks hs | inflight hs | splice hs | notImplemented hs
    | set hs | notPending hs | request hs | pick hs | newPiece hs | start hs
    | alreadyPending hs => rw [hs]

/-- A step without the lock is not taken where the lock is wanted. -/
theorem Effect.wantsLock_false {cfg : Config} {b : Bitfield} {a : SeedAct}
    (he : Effect cfg b s a s') (hkind : a.kind = .free) : s.phase.wantsLock = false := by
  cases he with
  | move hm =>
    cases hm with
    | finish | listen | sendOk | sendErr | pickNone | pickPending | pickNew => cases hkind
    | leave hs ha => rcases ha with rfl | rfl <;> cases hkind
    | ignore hs | streamEnd hs | release hs | choked hs => rw [hs]; rfl
  | valid | invalid => cases hkind
  | choke hs | unchoke hs | orphan hs | block hs | request hs | requestFailed hs | start hs
  | startFailed hs => rw [hs]; rfl
  | panic hcause hs' =>
    cases hcause with
    | remaining | set | notPending | pick | newPiece => cases hkind
    | choke hs | remainingBlocks hs | inflight hs | splice hs | notImplemented hs | request hs
    | start hs | alreadyPending hs => rw [hs]; rfl

/-- Only a piece that was just set is sent. -/
theorem Effect.keepsLock {cfg : Config} {b : Bitfield} {a : SeedAct}
    (he : Effect cfg b s a s') (hkind : a.kind ≠ .channel) (hs' : s'.phase.keepsLock = true) :
    a = .setPiece := by
  cases he with
  | move hm =>
    cases hm with
    | sendOk | sendErr => exact absurd rfl hkind
    | leave hs ha => rcases ha with rfl | rfl <;> exact absurd rfl hkind
    | finish | listen | ignore | streamEnd | release | choked | pickNone | pickPending
    | pickNew => cases hs'
  | valid => rfl
  | choke | unchoke | orphan | invalid | requestFailed | start | startFailed => cases hs'
  | block => dsimp only at hs'; split at hs' <;> cases hs'
  | request => dsimp only [SeedDownloader.goto] at hs'; split at hs' <;> cases hs'
  | panic hcause hpanic => rw [hpanic] at hs'; cases hs'

theorem put_holder_ne {b : Bitfield} (h : σ.lock.holder ≠ some (.seed k)) :
    (σ.put k b s').lock = σ.lock := if_neg fun hc => h hc.1

theorem put_keeps {b : Bitfield} (h : s'.phase.keepsLock = true) :
    (σ.put k b s').lock = σ.lock := if_neg fun hc => by rw [h] at hc; cases hc.2

theorem put_releases {b : Bitfield} (h : σ.lock.holder = some (.seed k))
    (hs' : s'.phase.keepsLock = false) : (σ.put k b s').lock = σ.lock.release := if_pos ⟨h, hs'⟩

/-- A step by itself puts nobody into the lock's queue. -/
theorem mem_put_queue {b : Bitfield} {t : Task} (ht : t ∈ (σ.put k b s').lock.queue) :
    t ∈ σ.lock.queue := by
  unfold Sys.put at ht
  dsimp only at ht
  split at ht
  · exact FifoMutex.mem_of_waiter (FifoMutex.mem_release ht)
  · exact ht

/-- A task that is not blocked, and does not wait for the lock, moves on. -/
theorem Sys.Wired.put (h : σ.Wired) (hk : σ.seeds[k]? = some s) (b : Bitfield)
    (hb : ¬ σ.Blocked (.seed k))
    (hq : .seed k ∈ σ.lock.queue → σ.lock.holder = some (.seed k))
    (hs' : s'.phase.keepsLock = true → σ.lock.holder = some (.seed k)) :
    (σ.put k b s').Wired where
  nodup := by
    unfold Sys.put
    dsimp only
    split
    · exact FifoMutex.nodup_release h.nodup
    · exact h.nodup
  main := fun hmem => h.main (mem_put_queue hmem)
  keeps := by
    intro j t hj hkeep
    rcases seeds_set hj with ⟨rfl, rfl⟩ | ⟨hne, hj⟩
    · rw [put_keeps hkeep]
      exact hs' hkeep
    · have hj' := h.keeps j t hj hkeep
      rw [put_holder_ne (by rw [hj']; exact fun heq => hne (Task.seed.inj (Option.some.inj heq)))]
      exact hj'
  queued := by
    intro j hj
    by_cases hjk : j = k
    · subst hjk
      have hhold := hq (mem_put_queue hj)
      refine ⟨s', ?_, Or.inr ?_⟩
      · unfold Sys.put
        rw [List.getElem?_set_self (List.getElem?_eq_some_iff.mp hk).1]
      · by_contra hkeep
        rw [put_releases hhold (Bool.eq_false_iff.mpr hkeep)] at hj
        exact FifoMutex.holder_not_mem_release h.nodup hhold hj
    · obtain ⟨t, ht, hph⟩ := h.queued j (mem_put_queue hj)
      refine ⟨t, ?_, hph⟩
      unfold Sys.put
      rw [List.getElem?_set_ne (Ne.symm hjk)]
      exact ht
  blockedNodup := h.blockedNodup
  blocked := by
    intro t m hmem
    obtain ⟨j, t', rfl, hj, hm⟩ := h.blocked t m hmem
    have hjk : j ≠ k := fun heq => hb (heq ▸ List.mem_map.mpr ⟨_, hmem, rfl⟩)
    refine ⟨j, t', rfl, ?_, hm⟩
    unfold Sys.put
    rw [List.getElem?_set_ne (Ne.symm hjk)]
    exact hj

/-- The channel loses blocked senders. -/
theorem Sys.Wired.chan (h : σ.Wired) {c : Chan Task DownloaderMsg channelCapacity}
    (hc : c.blocked.Sublist σ.chan.blocked) : Sys.Wired { σ with chan := c } where
  nodup := h.nodup
  main := h.main
  keeps := h.keeps
  queued := h.queued
  blockedNodup := h.blockedNodup.sublist (hc.map _)
  blocked := fun t m hmem => h.blocked t m (hc.subset hmem)

/-- A downloader is spawned while nothing was received. -/
theorem Sys.Wired.spawn (h : σ.Wired) (hs : σ.main ≠ .received) (phase : MainPhase) :
    Sys.Wired { σ with seeds := σ.seeds ++ [.new], main := phase } where
  nodup := h.nodup
  main := fun hmem => absurd (h.main hmem) hs
  keeps := by
    intro j t hj hkeep
    rcases seeds_spawn hj with ⟨-, rfl⟩ | hj
    · cases hkeep
    · exact h.keeps j t hj hkeep
  queued := by
    intro j hj
    obtain ⟨t, ht, hph⟩ := h.queued j hj
    exact ⟨t, List.getElem?_append_left (List.getElem?_eq_some_iff.mp ht).1 ▸ ht, hph⟩
  blockedNodup := h.blockedNodup
  blocked := by
    intro t m hmem
    obtain ⟨j, t', rfl, ht, hm⟩ := h.blocked t m hmem
    exact ⟨j, t', rfl, List.getElem?_append_left (List.getElem?_eq_some_iff.mp ht).1 ▸ ht, hm⟩

/-- A task that wants the lock asks for it. -/
theorem Sys.Wired.acquire (h : σ.Wired) {t : Task} (hq : t ∉ σ.lock.queue)
    (hw : σ.wantsLock t = true) : Sys.Wired { σ with lock := σ.lock.acquire t } where
  nodup := FifoMutex.nodup_acquire h.nodup hq
  main := by
    intro hmem
    rcases FifoMutex.mem_acquire.mp hmem with hmem | rfl
    · exact h.main hmem
    · exact of_decide_eq_true hw
  keeps := fun j t' hj hkeep => FifoMutex.holder_acquire_of_some (h.keeps j t' hj hkeep)
  queued := by
    intro j hj
    rcases FifoMutex.mem_acquire.mp hj with hj | rfl
    · exact h.queued j hj
    · obtain ⟨s, hk, hs⟩ := (Option.any_eq_true _ _).mp hw
      exact ⟨s, hk, Or.inl hs⟩
  blockedNodup := h.blockedNodup
  blocked := h.blocked

/-- The receive loop releases the lock, and no downloader held it. -/
theorem Sys.Wired.release (h : σ.Wired) (hlock : σ.lock.holder = some .main) (phase : MainPhase) :
    Sys.Wired { σ with lock := σ.lock.release, main := phase } where
  nodup := FifoMutex.nodup_release h.nodup
  main := fun hmem => absurd hmem (FifoMutex.holder_not_mem_release h.nodup hlock)
  keeps := by
    intro j t hj hkeep
    have hhold := h.keeps j t hj hkeep
    rw [hlock] at hhold
    cases hhold
  queued := fun j hj => h.queued j (FifoMutex.mem_of_waiter hj)
  blockedNodup := h.blockedNodup
  blocked := h.blocked

/-- The channel is full, and a sender joins the blocked ones. -/
theorem Sys.Wired.block (h : σ.Wired) (hk : σ.seeds[k]? = some s) {m : DownloaderMsg}
    (hm : s.message k = some m) (hnew : ¬ σ.Blocked (.seed k)) (hfull : σ.chan.Full) :
    Sys.Wired { σ with chan := σ.chan.send (.seed k) m } where
  nodup := h.nodup
  main := h.main
  keeps := h.keeps
  queued := h.queued
  blockedNodup := by
    dsimp only
    rw [(Chan.send_of_full hfull).2, List.map_append]
    exact h.blockedNodup.append (List.nodup_singleton _)
      fun t ha hb => hnew (by rw [List.mem_singleton.mp hb] at ha; exact ha)
  blocked := by
    intro t m' hmem
    dsimp only at hmem
    rw [(Chan.send_of_full hfull).2] at hmem
    rcases List.mem_append.mp hmem with hmem | hmem
    · exact h.blocked t m' hmem
    · obtain ⟨rfl, rfl⟩ := Prod.mk.inj (List.mem_singleton.mp hmem)
      exact ⟨_, _, rfl, hk, hm⟩

/-- The receive loop moves on. -/
theorem Sys.Wired.setMain (h : σ.Wired) (hs : σ.main ≠ .received) (phase : MainPhase) :
    Sys.Wired { σ with main := phase } :=
  ⟨h.nodup, fun hmem => absurd (h.main hmem) hs, h.keeps, h.queued, h.blockedNodup, h.blocked⟩

/-- A message that is handled leaves the wires as they are. -/
theorem Sys.Wired.handle (h : σ.Wired) (hs : σ.main ≠ .received) (m : DownloaderMsg) :
    (σ.handle su m).Wired where
  nodup := by rw [(handle_wires m).1]; exact h.nodup
  main := fun hmem => by rw [(handle_wires m).1] at hmem; exact absurd (h.main hmem) hs
  keeps := by rw [(handle_wires m).1, (handle_seeds m).1]; exact h.keeps
  queued := by rw [(handle_wires m).1, (handle_seeds m).1]; exact h.queued
  blockedNodup := by rw [(handle_wires m).2]; exact h.blockedNodup
  blocked := by rw [(handle_wires m).2, (handle_seeds m).1]; exact h.blocked

/-- What is queued was queued before, or was just sent. -/
theorem Change.queue (h : Change su σ act σ') (hw : σ.Wired) {m : DownloaderMsg}
    (hm : m ∈ σ'.chan.queue) : m ∈ σ.chan.queue ∨
      ∃ (k : Nat) (s : SeedDownloader), σ.seeds[k]? = some s ∧ s.message k = some m := by
  cases h with
  | main | spawn | lock | finish | own | crash | sendErr => exact Or.inl hm
  | sendBlocked hopen hk hm' hnew hfull =>
    dsimp only at hm
    rw [(Chan.send_of_full hfull).1] at hm
    exact Or.inl hm
  | sendOk hopen hk hm' hnew hroom =>
    unfold Sys.put at hm
    dsimp only at hm
    rw [(Chan.send_of_not_full hroom).1] at hm
    rcases List.mem_append.mp hm with hm | hm
    · exact Or.inl hm
    · obtain rfl := List.mem_singleton.mp hm
      exact Or.inr ⟨_, _, hk, hm'⟩
  | recv hs hr hadm =>
    rw [(handle_wires _).2] at hm
    rw [Chan.recv_none hr hadm]
    exact Or.inl (List.mem_cons_of_mem _ hm)
  | recvAdmit hs hr hadm hk hm' =>
    rw [(handle_wires _).2] at hm
    unfold Sys.put at hm
    dsimp only at hm
    obtain ⟨m', q, hmem, hqueue, hout, -⟩ := Chan.recv_admitted hr hadm
    rw [hout] at hm
    rcases List.mem_append.mp hm with hm | hm
    · rw [hqueue]
      exact Or.inl (List.mem_cons_of_mem _ hm)
    · obtain rfl := List.mem_singleton.mp hm
      obtain ⟨j, t, -, hj, hmj⟩ := hw.blocked _ _ hmem
      exact Or.inr ⟨j, t, hj, hmj⟩

/-- The buffer is returned by the receive loop when it finds nothing remaining. -/
theorem Change.returned (h : Change su σ act σ') {bytes : List UInt8}
    (hs' : σ'.main = .returned bytes) : σ.main = .returned bytes ∨
      act = .finish ∧ σ.main = .received ∧ σ.lock.holder = some .main ∧ σ.bytes = bytes ∧
        σ.bitfield.remaining su.cfg.profile = some 0 := by
  have hhandle : ∀ (σ₁ : Sys) m, (σ₁.handle su m).main ≠ .returned bytes := by
    intro σ₁ m
    unfold Sys.handle
    split
    · dsimp only
      split <;> exact (nomatch ·)
    · exact (nomatch ·)
  cases h with
  | main hm => cases hm <;> cases hs'
  | spawn hs hphase =>
    dsimp only at hs'
    rcases hphase with rfl | rfl <;> cases hs'
  | lock | own | crash | sendBlocked | sendOk | sendErr => exact Or.inl hs'
  | finish hs hlock =>
    refine Or.inr ⟨rfl, hs, hlock, ?_⟩
    dsimp only at hs'
    unfold Sys.check at hs'
    split at hs'
    next => cases hs'
    next hrem => exact ⟨MainPhase.returned.inj hs', hrem⟩
    next => cases hs'
  | recv hs hr hadm => exact absurd hs' (hhandle _ _)
  | recvAdmit hs hr hadm hk hm => exact absurd hs' (hhandle _ _)

/-- These moves of `File::download` do not begin behind a receive. -/
theorem MainMoves.not_received {phase : MainPhase} (h : MainMoves su σ act phase) :
    σ.main ≠ .received := by
  cases h with
  | pickSeeds hs | badId hs | refused hs | panicked hs | picked hs | closed hs =>
    rw [hs]
    exact (nomatch ·)

/-- A downloader that reads from its peer has nothing to do with the lock and the
channel. -/
theorem Sys.Wired.selecting (h : σ.Wired) (hk : σ.seeds[k]? = some s) (hs : s.phase = .select) :
    .seed k ∉ σ.lock.queue ∧ ¬ σ.Blocked (.seed k) := by
  refine ⟨fun hq => ?_, fun hb => ?_⟩
  · obtain ⟨s', hk', hph⟩ := h.queued k hq
    obtain rfl := Option.some.inj (hk.symm.trans hk')
    rw [hs] at hph
    rcases hph with hph | hph <;> cases hph
  · obtain ⟨m, hm⟩ := h.message hk hb
    unfold SeedDownloader.message at hm
    rw [hs] at hm
    cases hm

/-- Who has sent a piece still holds the lock. -/
theorem Sys.Wired.afterSend (h : σ.Wired) (hk : σ.seeds[k]? = some s)
    (hkeep : s.afterSend.phase.keepsLock = true) : σ.lock.holder = some (.seed k) := by
  refine h.keeps k s hk ?_
  unfold SeedDownloader.afterSend SeedDownloader.goto at hkeep
  dsimp only at hkeep
  split at hkeep
  next hs => exact hs
  next => cases hkeep

/-- One step keeps the wires. -/
theorem wired_step (h : σ.Wired) (hstep : sysStep su σ act = some σ') : σ'.Wired := by
  cases change_of_step hstep with
  | main hm => exact h.setMain hm.not_received _
  | spawn hs hphase => exact h.spawn (by rw [hs]; exact (nomatch ·)) _
  | lock hq hw => exact h.acquire hq hw
  | finish hs hlock => exact h.release hlock _
  | @own k s s' a hk hkind hlock he =>
    -- a downloader that waits in the channel takes no other step
    have hnone := he.message_none (k := k) hkind
    refine h.put hk _ (fun hb => ?_) (fun hq => ?_) fun hkeep => ?_
    · obtain ⟨m, hm⟩ := h.message hk hb
      rw [hnone] at hm
      cases hm
    · by_contra hne
      have hwant := h.waiter hk hq hne
      cases hkd : a.kind with
      | locked => exact hne (hlock hkd)
      | channel => exact hkind hkd
      | free => rw [he.wantsLock_false hkd] at hwant; cases hwant
    · obtain rfl := he.keepsLock hkind hkeep
      exact hlock rfl
  | crash hk hs =>
    obtain ⟨hq, hb⟩ := h.selecting hk hs
    exact h.put hk _ hb (fun hmem => absurd hmem hq) fun hkeep => by cases hkeep
  | sendBlocked hopen hk hm hnew hfull => exact h.block hk hm hnew hfull
  | @sendOk k s m hopen hk hm hnew hroom =>
    have hbl := (Chan.send_of_not_full (t := Task.seed k) (m := m) hroom).2
    refine (h.chan (c := σ.chan.send (.seed k) m) (by rw [hbl])).put hk _ (fun hb => hnew ?_)
      (h.sending_holds hk hm)
      (h.afterSend hk)
    unfold Sys.Blocked at hb
    rw [hbl] at hb
    exact hb
  | @sendErr k s m hclosed hk hm =>
    refine (h.chan (c := σ.chan.cancel (.seed k)) List.filter_sublist).put hk _ (fun hb => ?_)
      (h.sending_holds hk hm)
      fun hkeep => ?_
    · obtain ⟨m', hmem⟩ := mem_blocked hb
      exact of_decide_eq_true (List.mem_filter.mp hmem).2 rfl
    · unfold SeedDownloader.afterErr SeedDownloader.goto at hkeep
      dsimp only at hkeep
      split at hkeep <;> cases hkeep
  | recv hs hr hadm =>
    refine (h.chan (Chan.recv_blocked hr)).handle ?_ _
    rw [hs]
    exact (nomatch ·)
  -- a blocked sender is admitted and goes on
  | recvAdmit hs hr hadm hk hm =>
    obtain ⟨m', q, -, -, -, hout⟩ := Chan.recv_admitted hr hadm
    refine Sys.Wired.handle ((h.chan (Chan.recv_blocked hr)).put hk _ (hout h.blockedNodup)
      (h.sending_holds hk hm) (h.afterSend hk)) ?_ _
    show σ.main ≠ _
    rw [hs]
    exact (nomatch ·)

end Wired

end BitTorrent
