import BitTorrent.Download.Deadlock
import BitTorrent.Download.Once
import Mathlib.Algebra.BigOperators.Group.Finset.Basic
import Mathlib.Algebra.Order.BigOperators.Group.Finset

/-!
# How the download ends

Once every piece is owned the download comes to an end. A downloader that has
handled its message looks at the bitfield and stops, and the receive loop stops
after the next message. The potential of a state bounds what is left to do: each
step lowers it, so no run from there is longer (`windup_bounded`).

Nothing but the deadlock of the lock and the channel, and the peers, keep the
tasks from getting there (`stuck_over`). In a state that is not deadlocked, where
every step that is possible waits for a peer, the receive loop is over or has
nothing to receive, and the downloaders that are not over read from the streams
of their peers or write to them. Such a read ends after twenty seconds with the
write of a `KeepAlive`, and a write may never return.

The potential is a sum over the tasks of what each of them can still do, with a step
for the lock that it may have to ask for (`Sys.potential`). A step takes something
off the task that takes it, and adds nothing to the others.

That somebody can always move is the case analysis of `Download.Deadlock`, by the
phase that a task is in. A panic ends its task earlier, and is a step like others.
-/

namespace BitTorrent

/-- The steps a task has left when every piece is owned, by its phase. -/
def Phase.rank : Phase → Nat
  | .ended | .panicked _ => 0
  | .loopHead | .leaving => 1
  | .start .. => 2
  | .pick => 3
  | .request => 4
  | .sent => 5
  | .sending .. => 6
  | .complete _ => 7
  | .select => 8

/-- A peer that is still to be tried may become one more downloader. -/
def MainPhase.rank (peers : Nat) : MainPhase → Nat
  | .returned _ | .failed | .panicked => 0
  | .received => 2
  | .receiving => 4
  | .picking peers => 6 * peers + 5
  | .starting => 6 * peers + 6

/-- A task that asks for the lock, or blocks in the channel, does it once in a
phase. -/
def Sys.seedPotential (σ : Sys) (k : Nat) : Nat :=
  3 * ((σ.seeds[k]?).map fun s => s.phase.rank).getD 0 +
    (if .seed k ∈ σ.lock.queue then 0 else 1) + (if σ.Blocked (.seed k) then 0 else 1)

/-- The steps that `File::download` has left. It asks for the lock once more, if it
does. -/
def Sys.mainPotential (su : Setup) (σ : Sys) : Nat :=
  σ.main.rank su.peers + if .main ∈ σ.lock.queue then 0 else 1

/-- The steps that are left, for all tasks together. -/
def Sys.potential (su : Setup) (σ : Sys) : Nat :=
  σ.mainPotential su + (Finset.range σ.seeds.length).sum σ.seedPotential

/-- Every piece is owned, in a state a run can be in. -/
structure Sys.Done (su : Setup) (σ : Sys) : Prop extends Sys.Inv su σ, Sys.Wired σ where
  all : ∀ i, i < su.cfg.torrent.numPieces → σ.bitfield.Owns i

section Windup

variable {su : Setup} {cfg : Config} {b : Bitfield} {s s' : SeedDownloader} {a : SeedAct}
variable {σ σ' : Sys} {act : Action} {k : Nat}

/-! ## One downloader -/

theorem Phase.rank_le (ph : Phase) : ph.rank ≤ 8 := by
  cases ph <;> simp [Phase.rank]

/-- Every step of a task lowers its rank when nothing remains. -/
theorem Effect.rank_lt (he : Effect cfg b s a s') (hb : b.remaining cfg.profile = some 0) :
    s'.phase.rank < s.phase.rank := by
  cases he with
  | move hm =>
    cases hm with
    | listen hs hb' => rw [hb] at hb'; cases hb'
    | finish hs | ignore hs | streamEnd hs | sendOk hs | sendErr hs | leave hs | release hs
    | choked hs | pickNone hs | pickPending hs | pickNew hs =>
      rw [hs]
      simp [SeedDownloader.goto, Phase.rank]
  | choke hs | unchoke hs | orphan hs | valid hs | invalid hs | requestFailed hs | start hs
  | startFailed hs =>
    rw [hs]
    simp [SeedDownloader.goto, Phase.rank]
  | block hs =>
    rw [hs]
    dsimp only
    split <;> simp [Phase.rank]
  | request hs =>
    rw [hs]
    dsimp only [SeedDownloader.goto]
    split <;> simp [Phase.rank]
  | panic hcause hs' =>
    rw [hs']
    cases hcause with
    | remaining hs | choke hs | remainingBlocks hs | inflight hs | splice hs | notImplemented hs
    | set hs | notPending hs | request hs | pick hs | newPiece hs | start hs
    | alreadyPending hs =>
      rw [hs]
      simp [Phase.rank]

/-- When every piece is owned, `remaining` is 0. -/
theorem Sys.Done.remaining (h : σ.Done su) (p : Profile) : σ.bitfield.remaining p = some 0 := by
  rw [h.bitfield.remaining_eq su.cfg.torrent.numPieces_lt]
  refine congrArg some (Finset.card_eq_zero.mpr (Finset.eq_empty_iff_forall_notMem.mpr ?_))
  intro i hi
  obtain ⟨hlt, hun⟩ := (Bitfield.mem_missing h.bitfield).mp hi
  exact hun (h.all i hlt)

theorem done_step (h : σ.Done su) (hstep : sysStep su σ act = some σ') : σ'.Done su where
  toInv := inv_step h.toInv hstep
  toWired := wired_step h.toWired hstep
  all := fun i hi => (change_of_step hstep).seeds.owns h.toInv (h.all i hi)

/-! ## All of them -/

/-- When one summand gets less by `d` and none gets more, the sum gets less by
`d`. -/
theorem sum_move {n d : Nat} {f g : Nat → Nat} (hk : k < n) (hne : ∀ j, j ≠ k → f j ≤ g j)
    (hself : f k + d ≤ g k) : (Finset.range n).sum f + d ≤ (Finset.range n).sum g := by
  have hmem := Finset.mem_range.mpr hk
  rw [← Finset.add_sum_erase _ f hmem, ← Finset.add_sum_erase _ g hmem]
  have := Finset.sum_le_sum (s := (Finset.range n).erase k)
    fun j hj => hne j (Finset.ne_of_mem_erase hj)
  omega

/-- Another task's potential does not grow. -/
theorem seedPotential_le {j : Nat} (hseed : σ'.seeds[j]? = σ.seeds[j]?)
    (hlock : .seed j ∈ σ.lock.queue → .seed j ∈ σ'.lock.queue)
    (hblk : σ.Blocked (.seed j) → σ'.Blocked (.seed j)) :
    σ'.seedPotential j ≤ σ.seedPotential j := by
  unfold Sys.seedPotential
  rw [hseed]
  have hl : (if .seed j ∈ σ'.lock.queue then 0 else 1) ≤
      if .seed j ∈ σ.lock.queue then 0 else 1 := by
    by_cases h : .seed j ∈ σ.lock.queue
    · rw [if_pos (hlock h), if_pos h]
    · rw [if_neg h]
      split <;> omega
  have hb : (if σ'.Blocked (.seed j) then 0 else 1) ≤ if σ.Blocked (.seed j) then 0 else 1 := by
    by_cases h : σ.Blocked (.seed j)
    · rw [if_pos (hblk h), if_pos h]
    · rw [if_neg h]
      split <;> omega
  omega

theorem seedPotential_bound (σ : Sys) (k : Nat) : σ.seedPotential k ≤
    3 * ((σ.seeds[k]?).map fun s => s.phase.rank).getD 0 + 2 := by
  unfold Sys.seedPotential
  split <;> split <;> omega

/-- A task whose rank falls may leave the queue of the lock and the channel. -/
theorem seedPotential_lt (hk : σ.seeds[k]? = some s) (hk' : σ'.seeds[k]? = some s')
    (hrank : s'.phase.rank < s.phase.rank) : σ'.seedPotential k + 1 ≤ σ.seedPotential k := by
  have hle := seedPotential_bound σ' k
  have hge : 3 * s.phase.rank ≤ σ.seedPotential k := by
    unfold Sys.seedPotential
    rw [hk]
    dsimp only [Option.map_some, Option.getD_some]
    omega
  rw [hk'] at hle
  dsimp only [Option.map_some, Option.getD_some] at hle
  omega

/-- A step of the task `k`. -/
theorem potential_move (hk : σ.seeds[k]? = some s) (hseeds : σ'.seeds = σ.seeds.set k s')
    (hrank : s'.phase.rank < s.phase.rank)
    (hmain : σ'.main.rank su.peers ≤ σ.main.rank su.peers)
    (hlock : ∀ t, t ≠ .seed k → t ∈ σ.lock.queue → t ∈ σ'.lock.queue)
    (hblk : ∀ j, j ≠ k → σ.Blocked (.seed j) → σ'.Blocked (.seed j)) :
    σ'.potential su < σ.potential su := by
  have hlt := (List.getElem?_eq_some_iff.mp hk).1
  have hsum : (Finset.range σ.seeds.length).sum σ'.seedPotential + 1 ≤
      (Finset.range σ.seeds.length).sum σ.seedPotential := sum_move hlt
    (fun j hj => seedPotential_le (by rw [hseeds, List.getElem?_set_ne (Ne.symm hj)])
      (hlock _ fun heq => hj (Task.seed.inj heq)) (hblk j hj))
    (seedPotential_lt hk (by rw [hseeds, List.getElem?_set_self hlt]) hrank)
  have hm : σ'.mainPotential su ≤ σ.mainPotential su := by
    unfold Sys.mainPotential
    by_cases h : .main ∈ σ.lock.queue
    · rw [if_pos (hlock _ (by intro heq; cases heq) h), if_pos h]
      omega
    · rw [if_neg h]
      split <;> omega
  unfold Sys.potential
  rw [hseeds, List.length_set]
  omega

/-- A step that leaves the downloaders where they are. -/
theorem potential_keep (hseeds : σ'.seeds = σ.seeds)
    (hlock : ∀ j, .seed j ∈ σ.lock.queue → .seed j ∈ σ'.lock.queue)
    (hblk : ∀ j, σ.Blocked (.seed j) → σ'.Blocked (.seed j))
    (hmain : σ'.mainPotential su < σ.mainPotential su) : σ'.potential su < σ.potential su := by
  have hsum : (Finset.range σ.seeds.length).sum σ'.seedPotential ≤
      (Finset.range σ.seeds.length).sum σ.seedPotential := Finset.sum_le_sum
    fun j _ => seedPotential_le (by rw [hseeds]) (hlock j) (hblk j)
  unfold Sys.potential
  rw [hseeds]
  omega

theorem mem_release_of_ne {t u : Task} (h : t ∈ σ.lock.queue) (hu : σ.lock.holder = some u)
    (hne : t ≠ u) : t ∈ σ.lock.release.queue := by
  refine (FifoMutex.holder_or_waiter h).resolve_left fun hh => hne ?_
  exact Option.some.inj (hh.symm.trans hu)

/-- Only the holder leaves the queue when a task moves on. -/
theorem mem_put_of_ne {t : Task} (ht : t ≠ .seed k) (h : t ∈ σ.lock.queue) (b : Bitfield) :
    t ∈ (σ.put k b s').lock.queue := by
  unfold Sys.put
  dsimp only
  split
  next hc => exact mem_release_of_ne h hc.1 ht
  next => exact h

/-- A receive lets one blocked sender in, and leaves the others blocked. -/
theorem blocked_eraseIdx {c : Chan Task DownloaderMsg channelCapacity} {j : Nat}
    {r : Chan.Received Task DownloaderMsg channelCapacity} (hr : c.recv j = some r)
    {t : Task} (ht : r.admitted ≠ some t) (h : t ∈ c.blocked.map Prod.fst) :
    t ∈ r.chan.blocked.map Prod.fst := by
  obtain ⟨q, -, ⟨u, m, hj, hadm, -, hbl⟩ | ⟨hnil, -, -, hbl⟩⟩ := Chan.recv_cases hr
  · obtain ⟨p, hp, rfl⟩ := List.mem_map.mp h
    refine List.mem_map.mpr ⟨p, ?_, rfl⟩
    rw [hbl]
    refine List.mem_eraseIdx_iff_getElem?.mpr ?_
    obtain ⟨i, hi⟩ := List.getElem?_of_mem hp
    refine ⟨i, fun heq => ht ?_, hi⟩
    rw [heq, hj] at hi
    rw [hadm, ← Option.some.inj hi]
  · rw [hnil] at h
    cases h

/-- After a message `File::download` has two steps left, or none. -/
theorem handle_rank (m : DownloaderMsg) : (σ.handle su m).main.rank su.peers ≤ 2 := by
  rcases @handle_main su σ m with hs | hs <;> rw [hs] <;> simp [MainPhase.rank]

/-- Two steps less are less, also with the lock that may be asked for. -/
theorem mainPotential_lt (hrank : σ'.main.rank su.peers + 1 < σ.main.rank su.peers) :
    σ'.mainPotential su < σ.mainPotential su := by
  unfold Sys.mainPotential
  split <;> split <;> omega

/-- Every such move of `File::download` brings it nearer to its end. -/
theorem MainMoves.rank_lt {phase : MainPhase} (hm : MainMoves su σ act phase) :
    phase.rank su.peers < σ.main.rank su.peers := by
  cases hm with
  | pickSeeds hs | badId hs | refused hs | panicked hs | picked hs | closed hs =>
    rw [hs]
    dsimp only [MainPhase.rank]
    omega

/-- A peer that turns out to be a seed becomes a downloader. -/
theorem potential_spawn {peers : Nat} {phase : MainPhase} (hs : σ.main = .picking (peers + 1))
    (hphase : phase = .receiving ∨ phase = .picking peers) :
    Sys.potential su { σ with seeds := σ.seeds ++ [.new], main := phase } < σ.potential su := by
  have hold : ∀ j ∈ Finset.range σ.seeds.length,
      Sys.seedPotential { σ with seeds := σ.seeds ++ [.new], main := phase } j ≤
        σ.seedPotential j := fun j hj =>
    seedPotential_le (List.getElem?_append_left (Finset.mem_range.mp hj)) id id
  have hnew := seedPotential_bound { σ with seeds := σ.seeds ++ [.new], main := phase }
    σ.seeds.length
  rw [show (σ.seeds ++ [SeedDownloader.new])[σ.seeds.length]? = some .new by simp] at hnew
  have hrank : SeedDownloader.new.phase.rank = 1 := rfl
  dsimp only [Option.map_some, Option.getD_some] at hnew
  have hsum : (Finset.range σ.seeds.length).sum
      (Sys.seedPotential { σ with seeds := σ.seeds ++ [.new], main := phase }) ≤
      (Finset.range σ.seeds.length).sum σ.seedPotential := Finset.sum_le_sum hold
  have hmain : phase.rank su.peers + 6 ≤ σ.main.rank su.peers := by
    rw [hs]
    rcases hphase with rfl | rfl <;> dsimp only [MainPhase.rank] <;> omega
  have hsucc : (Finset.range (σ.seeds.length + 1)).sum
      (Sys.seedPotential { σ with seeds := σ.seeds ++ [.new], main := phase }) = _ + _ :=
    Finset.sum_range_succ _ _
  unfold Sys.potential Sys.mainPotential
  dsimp only
  rw [List.length_append, List.length_singleton, hsucc]
  have : (Finset.range σ.seeds.length).sum (fun j =>
    Sys.seedPotential { σ with seeds := σ.seeds ++ [.new], main := phase } j) ≤ _ := hsum
  omega

/-- A task that starts to wait for the lock. -/
theorem potential_lock {t : Task} (hq : t ∉ σ.lock.queue) (hw : σ.wantsLock t = true) :
    Sys.potential su { σ with lock := σ.lock.acquire t } < σ.potential su := by
  have hkeep : ∀ u, u ∈ σ.lock.queue → u ∈ (σ.lock.acquire t).queue := fun u hu =>
    FifoMutex.mem_acquire.mpr (Or.inl hu)
  have hself : t ∈ (σ.lock.acquire t).queue := FifoMutex.mem_acquire.mpr (Or.inr rfl)
  cases t with
  | main =>
    refine potential_keep rfl (fun j => hkeep _) (fun _ => id) ?_
    unfold Sys.mainPotential
    dsimp only
    rw [if_pos hself, if_neg hq]
    omega
  | seed k =>
    obtain ⟨s, hk, -⟩ := (Option.any_eq_true _ _).mp hw
    have hlt := (List.getElem?_eq_some_iff.mp hk).1
    have hsum : (Finset.range σ.seeds.length).sum
        (Sys.seedPotential { σ with lock := σ.lock.acquire (.seed k) }) + 1 ≤
        (Finset.range σ.seeds.length).sum σ.seedPotential := by
      refine sum_move hlt (fun j _ => seedPotential_le rfl (hkeep _) id) ?_
      unfold Sys.seedPotential
      dsimp only
      rw [if_pos hself, if_neg hq]
      show 3 * _ + 0 + (if σ.Blocked (.seed k) then 0 else 1) + 1 ≤ 3 * _ + 1 + _
      omega
    have hmain : Sys.mainPotential su { σ with lock := σ.lock.acquire (.seed k) } ≤
        σ.mainPotential su := by
      unfold Sys.mainPotential
      dsimp only
      by_cases h : .main ∈ σ.lock.queue
      · rw [if_pos (hkeep _ h), if_pos h]
      · rw [if_neg h]
        split <;> omega
    unfold Sys.potential
    dsimp only
    omega

/-- A sender that finds the queue full. -/
theorem potential_blocked {m : DownloaderMsg} (hk : σ.seeds[k]? = some s)
    (hnew : ¬ σ.Blocked (.seed k)) (hfull : σ.chan.Full) :
    Sys.potential su { σ with chan := σ.chan.send (.seed k) m } < σ.potential su := by
  have hlt := (List.getElem?_eq_some_iff.mp hk).1
  have hbl := (Chan.send_of_full (t := Task.seed k) (m := m) hfull).2
  have hkeep : ∀ t, σ.Blocked t → Sys.Blocked { σ with chan := σ.chan.send (.seed k) m } t := by
    intro t ht
    unfold Sys.Blocked
    dsimp only
    rw [hbl, List.map_append]
    exact List.mem_append_left _ ht
  have hself : Sys.Blocked { σ with chan := σ.chan.send (.seed k) m } (.seed k) := by
    unfold Sys.Blocked
    dsimp only
    rw [hbl, List.map_append]
    exact List.mem_append_right _ (List.mem_singleton_self _)
  have hsum : (Finset.range σ.seeds.length).sum
      (Sys.seedPotential { σ with chan := σ.chan.send (.seed k) m }) + 1 ≤
      (Finset.range σ.seeds.length).sum σ.seedPotential := by
    refine sum_move hlt (fun j _ => seedPotential_le rfl id (hkeep _)) ?_
    unfold Sys.seedPotential
    dsimp only
    rw [if_pos hself, if_neg hnew]
  unfold Sys.potential
  exact Nat.add_lt_add_left hsum _

/-- Every step lowers the potential. -/
theorem potential_step (h : σ.Done su) (hstep : sysStep su σ act = some σ') :
    σ'.potential su < σ.potential su := by
  have hrank : ∀ {k : Nat} {s s' : SeedDownloader} {a : SeedAct}, σ.seeds[k]? = some s →
      Effect su.cfg σ.bitfield s a s' → s'.phase.rank < s.phase.rank := fun _ he =>
    he.rank_lt (h.remaining _)
  cases change_of_step hstep with
  | main hm =>
    refine potential_keep rfl (fun _ => id) (fun _ => id) ?_
    unfold Sys.mainPotential
    have := hm.rank_lt
    dsimp only
    omega
  | spawn hs hphase => exact potential_spawn hs hphase
  | lock hq hw => exact potential_lock hq hw
  | finish hs hlock =>
    refine potential_keep rfl (fun j hj => mem_release_of_ne hj hlock (by intro heq; cases heq))
      (fun _ => id) (mainPotential_lt ?_)
    have hret : σ.check su = .returned σ.bytes := by
      unfold Sys.check
      rw [h.remaining]
      rfl
    dsimp only
    rw [hret, hs]
    dsimp only [MainPhase.rank]
    omega
  | own hk hkind hlock he =>
    exact potential_move hk rfl (hrank hk he) (Nat.le_refl _) (fun t ht hq => mem_put_of_ne ht hq _)
      fun _ _ => id
  | crash hk hs =>
    refine potential_move hk rfl ?_ (Nat.le_refl _) (fun t ht hq => mem_put_of_ne ht hq _)
      fun _ _ => id
    rw [hs]
    exact Nat.succ_pos 7
  | sendBlocked hopen hk hm hnew hfull => exact potential_blocked hk hnew hfull
  | @sendOk k s m hopen hk hm hnew hroom =>
    refine potential_move hk rfl (hrank hk (effect_afterSend hm)) (Nat.le_refl _)
      (fun t ht hq => mem_put_of_ne (σ := { σ with chan := σ.chan.send (.seed k) m }) ht hq _)
      fun j _ hb => ?_
    have hbl := (Chan.send_of_not_full (t := Task.seed k) (m := m) hroom).2
    show _ ∈ (σ.chan.send (.seed k) m).blocked.map Prod.fst
    rw [hbl]
    exact hb
  | @sendErr k s m hclosed hk hm =>
    refine potential_move hk rfl (hrank hk (effect_afterErr hm)) (Nat.le_refl _)
      (fun t ht hq => mem_put_of_ne (σ := { σ with chan := σ.chan.cancel (.seed k) }) ht hq _)
      fun j hj hb => ?_
    obtain ⟨p, hp, heq⟩ := List.mem_map.mp hb
    refine List.mem_map.mpr ⟨p, List.mem_filter.mpr ⟨hp, decide_eq_true ?_⟩, heq⟩
    rw [heq]
    exact fun heq => hj (Task.seed.inj heq)
  | @recv j r hs hr hadm =>
    refine potential_keep (handle_seeds _).1 (fun j hj => ?_) (fun j hb => ?_) (mainPotential_lt ?_)
    · rw [(handle_wires _).1]
      exact hj
    · unfold Sys.Blocked
      rw [(handle_wires _).2]
      exact blocked_eraseIdx hr (by rw [hadm]; intro heq; cases heq) hb
    · have hle := @handle_rank su { σ with chan := r.chan } r.msg
      have hfour : σ.main.rank su.peers = 4 := by rw [hs]; rfl
      omega
  | @recvAdmit j r k s m hs hr hadm hk hm =>
    refine potential_move hk (handle_seeds _).1 (hrank hk (effect_afterSend hm)) ?_
      (fun t ht hq => ?_) fun i hi hb => ?_
    · have hle := @handle_rank su (Sys.put { σ with chan := r.chan } k σ.bitfield
        s.afterSend) r.msg
      have hfour : σ.main.rank su.peers = 4 := by rw [hs]; rfl
      omega
    · rw [(handle_wires _).1]
      exact mem_put_of_ne (σ := { σ with chan := r.chan }) ht hq _
    · unfold Sys.Blocked
      rw [(handle_wires _).2]
      refine blocked_eraseIdx hr (fun heq => hi ?_) hb
      rw [hadm] at heq
      exact (Task.seed.inj (Option.some.inj heq)).symm

/-- What is left to do is bounded by the number of downloaders and peers. -/
theorem potential_le (h : σ.Picked su) :
    σ.potential su ≤ 26 * σ.seeds.length + 6 * su.peers + 7 := by
  have hseed : ∀ k ∈ Finset.range σ.seeds.length, σ.seedPotential k ≤ 26 := by
    intro k hk
    have hlt : k < σ.seeds.length := Finset.mem_range.mp hk
    have hle := seedPotential_bound σ k
    have hrank := Phase.rank_le σ.seeds[k].phase
    rw [List.getElem?_eq_getElem hlt] at hle
    dsimp only [Option.map_some, Option.getD_some] at hle
    omega
  have hsum : (Finset.range σ.seeds.length).sum σ.seedPotential ≤ σ.seeds.length * 26 := by
    refine Nat.le_trans (Finset.sum_le_sum hseed) (Nat.le_of_eq ?_)
    rw [Finset.sum_const_nat fun _ _ => rfl, Finset.card_range]
  have hmain : σ.main.rank su.peers ≤ 6 * su.peers + 6 := by
    have hpeers := h.peers
    cases hm : σ.main with
    | picking peers =>
      rw [hm] at hpeers
      dsimp only [MainPhase.peersLeft] at hpeers
      dsimp only [MainPhase.rank]
      omega
    | starting | receiving | received | returned | failed | panicked =>
      dsimp only [MainPhase.rank]
      omega
  unfold Sys.potential Sys.mainPotential
  split <;> omega

/-- **The download winds up.** Once every piece is owned, no run is longer than
26 steps for each downloader, 6 for each peer and 7 more, whatever the peers send
and however the tasks interleave. -/
theorem windup_bounded (su : Setup) (acts rest : List Action) (σ σ' : Sys)
    (hrun : run (sysStep su) (Sys.new su) acts = some σ)
    (hall : ∀ i, i < su.cfg.torrent.numPieces → σ.bitfield.Owns i)
    (hrest : run (sysStep su) σ rest = some σ') :
    rest.length ≤ 26 * σ.seeds.length + 6 * su.peers + 7 := by
  have hinv := run_invariant (P := fun σ => (σ.Inv su ∧ σ.Wired) ∧ σ.Picked su)
    (fun σ a σ' h hs => ⟨⟨inv_step h.1.1 hs, wired_step h.1.2 hs⟩, picked_step h.2 hs⟩)
    ⟨⟨inv_new su, wired_new su⟩, picked_new su⟩ hrun
  obtain ⟨⟨hi, hw⟩, hp⟩ := hinv
  have hlen := run_length_le (P := fun σ => σ.Done su) (μ := Sys.potential su)
    (fun σ a σ' h hs => ⟨done_step h hs, potential_step h hs⟩)
    { toInv := hi, toWired := hw, all := hall } hrest
  have := potential_le hp
  omega

/-- Both pieces are owned, and the second one is still to be sent. -/
def allOwned : List Action := brought ++ [.lock .main, .finish] ++ Action.assemble 0 1 2

theorem windup_bounded_two : ∃ σ σ',
    run (sysStep (lone .dev)) (Sys.new (lone .dev)) allOwned = some σ ∧
    run (sysStep (lone .dev)) σ [.send 0, .recv 0, .lock .main, .seed 0 .release, .finish] =
      some σ' ∧ 5 ≤ 26 * σ.seeds.length + 6 * 1 + 7 := by
  let rest : List Action := [.send 0, .recv 0, .lock .main, .seed 0 .release, .finish]
  obtain ⟨σ, hrun, htwo⟩ := Option.map_eq_some_iff.mp
    (show (run (sysStep (lone .dev)) (Sys.new (lone .dev)) allOwned).map (fun σ : Sys =>
      ((List.range 2).all fun i => decide (σ.bitfield.Owns i),
        (run (sysStep (lone .dev)) σ rest).isSome)) = some (true, true) by decide +kernel)
  obtain ⟨hall, hrest⟩ := Prod.mk.inj htwo
  obtain ⟨σ', hrest⟩ := Option.isSome_iff_exists.mp hrest
  refine ⟨σ, σ', hrun, hrest, windup_bounded (lone .dev) allOwned rest σ σ' hrun ?_ hrest⟩
  intro i hi
  exact of_decide_eq_true (List.all_eq_true.mp hall i (List.mem_range.mpr hi))

/-! ## Nothing is left behind -/

/-- The receive loop and all downloaders are over. -/
def Sys.Over (σ : Sys) : Prop := σ.main.ended = true ∧ ∀ s ∈ σ.seeds, s.phase.gone = true

/-- All that is left waits for peers: the downloaders that are not over for their
own, `File::download` for a message of theirs. -/
structure Sys.AtPeers (su : Setup) (σ : Sys) : Prop where
  lock : σ.lock.queue = []
  send : σ.chan.blocked = []
  main : σ.main.ended = true ∨ σ.main = .receiving ∧ σ.chan.queue = []
  seeds : ∀ s ∈ σ.seeds, s.phase.gone = true ∨ s.phase.onStream = true
  waits : ∃ s ∈ σ.seeds, s.phase.onStream = true
  answered : ∀ (k : Nat) s, σ.seeds[k]? = some s → s.phase.onStream = true →
    σ.CanMove su fun t => t = .seed k

/-- A holder that is blocked has the loop to wait for, unless the two deadlock. -/
theorem drained_of_free (hi : σ.Inv su) (hw : σ.Wired) (hfree : ¬ σ.Deadlocked)
    (hmain : σ.main = .received → .main ∈ σ.lock.queue) : σ.Drained su := by
  refine { toInv := hi, toWired := hw, drains := fun t ht hb hs => hfree ?_ }
  obtain ⟨m, hmem⟩ := mem_blocked hb
  obtain ⟨k, s, rfl, hk, -⟩ := hw.blocked t m hmem
  refine ⟨(FifoMutex.holder_or_waiter (hmain hs)).resolve_left fun hh => ?_, k, ht, hb, ?_⟩
  · rw [ht] at hh
    cases hh
  · exact σ.chan.blocked_full (blocked_ne_nil hb)

/-- A download in which nobody waits for the lock or in the channel. -/
theorem alone_or_atPeers (hw : σ.Wired) (hh : σ.lock.holder = none) (hb : σ.chan.blocked = [])
    (hs : σ.main ≠ .received) (hnot : ¬ σ.Over) :
    (σ.CanMoveAlone su fun _ => True) ∨ σ.AtPeers su := by
  by_cases hmain : σ.main.ended = true ∨ σ.main = .receiving ∧ σ.chan.queue = []
  · by_cases hseeds : ∀ s ∈ σ.seeds, s.phase.gone = true ∨ s.phase.onStream = true
    · by_cases hwaits : ∃ s ∈ σ.seeds, s.phase.onStream = true
      · exact Or.inr ⟨FifoMutex.holder_eq_none.mp hh, hb, hmain, hseeds, hwaits,
          fun _ _ hk hstream => canMove_onStream hk hstream⟩
      · -- all the downloaders are over, and so their senders are dropped
        have hgone : ∀ s ∈ σ.seeds, s.phase.gone = true := fun s hmem =>
          (hseeds s hmem).resolve_right fun hstream => hwaits ⟨s, hmem, hstream⟩
        rcases hmain with hended | ⟨hrecv, hq⟩
        · exact absurd ⟨hended, hgone⟩ hnot
        · refine Or.inl (alone_of (a := .recvClosed) trivial rfl ?_)
          simp only [sysStep, hrecv]
          rw [if_pos ⟨hq, List.all_eq_true.mpr hgone⟩]
          rfl
    · simp only [not_forall, not_or] at hseeds
      obtain ⟨s, hmem, hlive, hstream⟩ := hseeds
      obtain ⟨k, hk⟩ := List.getElem?_of_mem hmem
      have halone : σ.CanMoveAlone su (fun t => t = .seed k) :=
        (alone_or_onStream hw hh hb hk (Bool.eq_false_iff.mpr hlive)).resolve_right hstream
      exact Or.inl (halone.mono fun _ _ => trivial)
  · obtain ⟨hopen, hq⟩ := not_or.mp hmain
    exact Or.inl (alone_main hw (Bool.eq_false_iff.mpr hopen) hs
      (fun hrecv hnil => hq ⟨hrecv, hnil⟩) trivial)

/-- **Only the deadlock and the peers keep the download from its end.** In every
reachable state in which the receive loop and the holder of the lock do not wait
for each other, and not everybody is over, some task can take a step that waits
for no peer. Or else all that is left are downloaders that read from their peers'
streams or write to them, and each of them goes on when that returns. -/
theorem stuck_over (su : Setup) (acts : List Action) (σ : Sys)
    (hrun : run (sysStep su) (Sys.new su) acts = some σ) (hfree : ¬ σ.Deadlocked)
    (hnot : ¬ σ.Over) : (σ.CanMoveAlone su fun _ => True) ∨ σ.AtPeers su := by
  have hinv := run_invariant (P := fun σ => σ.Inv su ∧ σ.Wired)
    (fun σ a σ' h hs => ⟨inv_step h.1 hs, wired_step h.2 hs⟩) ⟨inv_new su, wired_new su⟩ hrun
  obtain ⟨hi, hw⟩ := hinv
  by_cases hwait : σ.main = .received → .main ∈ σ.lock.queue
  · have hd := drained_of_free hi hw hfree hwait
    cases hh : σ.lock.holder with
    | some t => exact Or.inl ((alone_holder hd hh).mono fun _ _ => trivial)
    | none =>
      by_cases hb : σ.chan.blocked = []
      · refine alone_or_atPeers hw hh hb (fun hs => ?_) hnot
        have hmem := hwait hs
        rw [FifoMutex.holder_eq_none.mp hh] at hmem
        cases hmem
      · exact Or.inl ((alone_blocked hd hb).mono fun _ _ => trivial)
  · simp only [Classical.not_imp] at hwait
    exact Or.inl (alone_lock (t := .main) hwait.2 (decide_eq_true hwait.1) trivial)

theorem stuck_over_two : ∃ σ, run (sysStep (lone .dev)) (Sys.new (lone .dev)) brought = some σ ∧
    ((σ.CanMoveAlone (lone .dev) fun _ => True) ∨ σ.AtPeers (lone .dev)) := by
  obtain ⟨σ, hrun, hfree⟩ := Option.map_eq_some_iff.mp
    (show (run (sysStep (lone .dev)) (Sys.new (lone .dev)) brought).map (fun σ : Sys =>
      (decide σ.Deadlocked, σ.main.ended)) = some (false, false) by decide +kernel)
  obtain ⟨hfree, hmain⟩ := Prod.mk.inj hfree
  refine ⟨σ, hrun, stuck_over (lone .dev) brought σ hrun (of_decide_eq_false hfree) ?_⟩
  intro h
  obtain ⟨hended, -⟩ := h
  rw [hmain] at hended
  cases hended

end Windup

end BitTorrent
