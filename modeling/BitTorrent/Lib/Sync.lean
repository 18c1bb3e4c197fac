import Mathlib.Data.List.Nodup

/-!
# A FIFO mutex and a bounded channel

`FifoMutex` is the queue of the tasks that asked for the lock: the head holds
it, the others wait in the order of their requests. Releasing hands the lock to
the next task, so the lock is free exactly when nobody is in the queue.

`Chan` is a bounded queue with the senders that found it full. A send enqueues
or blocks; a receive takes the oldest message and lets one blocked sender
enqueue (which one is the scheduler's choice). That senders block only on a full
queue is part of the type.

Mirroring notes:

* tokio's mutex is fair, in the order of the requests. A request that is given up
  before it is granted is not modelled;
* a guard is dropped by a `release`, at the end of its block or because its task
  panics. The mutex is not poisoned by a panic;
* a channel whose receiver is gone makes every send fail. The receiver is not part
  of the channel here, so that is left to those who use it.
-/

namespace BitTorrent

variable {τ μ : Type}

/-- The tasks that hold or wait for the lock, in the order they asked for it. -/
structure FifoMutex (τ : Type) where
  queue : List τ

namespace FifoMutex

/-- The task that holds the lock. -/
def holder (m : FifoMutex τ) : Option τ := m.queue.head?

/-- The tasks that wait for the lock. -/
def waiters (m : FifoMutex τ) : List τ := m.queue.tail

/-- `lock().await`: take the lock when it is free, else wait for it. -/
def acquire (m : FifoMutex τ) (t : τ) : FifoMutex τ := ⟨m.queue ++ [t]⟩

/-- The guard is dropped: the next task in the queue gets the lock. -/
def release (m : FifoMutex τ) : FifoMutex τ := ⟨m.queue.tail⟩

theorem holder_eq_none {m : FifoMutex τ} : m.holder = none ↔ m.queue = [] :=
  List.head?_eq_none_iff

theorem mem_of_holder {m : FifoMutex τ} {t : τ} (h : m.holder = some t) : t ∈ m.queue :=
  List.mem_of_head? h

theorem mem_of_waiter {m : FifoMutex τ} {t : τ} (h : t ∈ m.waiters) : t ∈ m.queue :=
  List.mem_of_mem_tail h

/-- Who is in the queue holds the mutex or waits. -/
theorem holder_or_waiter {m : FifoMutex τ} {t : τ} (h : t ∈ m.queue) :
    m.holder = some t ∨ t ∈ m.waiters := by
  unfold holder waiters
  cases hq : m.queue with
  | nil => rw [hq] at h; cases h
  | cons x xs =>
    rw [hq] at h
    rcases List.mem_cons.mp h with rfl | h
    · exact Or.inl rfl
    · exact Or.inr h

/-- Who waits, waits for somebody. -/
theorem holder_ne_none_of_waiter {m : FifoMutex τ} {t : τ} (h : t ∈ m.waiters) :
    ∃ u, m.holder = some u := by
  cases hh : m.holder with
  | some u => exact ⟨u, rfl⟩
  | none =>
    have := mem_of_waiter h
    rw [holder_eq_none.mp hh] at this
    cases this

/-- A holder keeps the lock while others ask for it. -/
theorem holder_acquire_of_some {m : FifoMutex τ} {t u : τ} (h : m.holder = some u) :
    (m.acquire t).holder = some u := by
  unfold holder acquire at *
  cases hq : m.queue with
  | nil => rw [hq] at h; cases h
  | cons x xs => rw [hq] at h; exact h

theorem mem_acquire {m : FifoMutex τ} {t u : τ} :
    u ∈ (m.acquire t).queue ↔ u ∈ m.queue ∨ u = t := by
  simp [acquire]

/-- The task that takes over is one that waited, or the lock was free. -/
theorem holder_acquire {m : FifoMutex τ} {t u : τ} (h : (m.acquire t).holder = some u) :
    m.holder = some u ∨ (m.holder = none ∧ u = t) := by
  unfold holder acquire at *
  cases hq : m.queue with
  | nil => rw [hq] at h; exact Or.inr ⟨rfl, (Option.some.inj h).symm⟩
  | cons x xs => rw [hq] at h; exact Or.inl h

/-- A task that asks for a lock that is held waits. -/
theorem waiter_acquire_of_some {m : FifoMutex τ} {t u : τ} (h : m.holder = some u) :
    t ∈ (m.acquire t).waiters := by
  unfold holder waiters acquire at *
  cases hq : m.queue with
  | nil => rw [hq] at h; cases h
  | cons x xs => exact List.mem_append_right _ (List.mem_singleton_self _)

/-- Who waits keeps waiting while others ask for the lock. -/
theorem waiter_acquire {m : FifoMutex τ} {t u : τ} (h : u ∈ m.waiters) :
    u ∈ (m.acquire t).waiters := by
  unfold waiters acquire at *
  cases hq : m.queue with
  | nil => rw [hq] at h; cases h
  | cons x xs => rw [hq] at h; exact List.mem_append_left _ h

theorem mem_release {m : FifoMutex τ} {t : τ} (h : t ∈ m.release.queue) : t ∈ m.waiters := h

theorem nodup_acquire {m : FifoMutex τ} {t : τ} (hm : m.queue.Nodup) (ht : t ∉ m.queue) :
    (m.acquire t).queue.Nodup :=
  hm.append (List.nodup_singleton t) fun _ ha hb => ht (List.mem_singleton.mp hb ▸ ha)

theorem nodup_release {m : FifoMutex τ} (hm : m.queue.Nodup) : m.release.queue.Nodup :=
  hm.tail

/-- The holder leaves the queue when it releases. -/
theorem holder_not_mem_release {m : FifoMutex τ} {t : τ} (hm : m.queue.Nodup)
    (h : m.holder = some t) : t ∉ m.release.queue := by
  unfold holder release at *
  cases hq : m.queue with
  | nil => rw [hq] at h; cases h
  | cons x xs =>
    rw [hq] at h hm
    rw [← show x = t from Option.some.inj h]
    exact (List.nodup_cons.mp hm).1

end FifoMutex

/-- A channel of capacity `cap`, with the senders that found it full. -/
structure Chan (τ μ : Type) (cap : Nat) where
  queue : List μ
  blocked : List (τ × μ)
  queue_le : queue.length ≤ cap
  blocked_full : blocked ≠ [] → queue.length = cap

namespace Chan

variable {cap : Nat}

/-- The empty channel. -/
def empty : Chan τ μ cap := ⟨[], [], Nat.zero_le _, fun h => absurd rfl h⟩

/-- A send finds no room. -/
def Full (c : Chan τ μ cap) : Prop := c.queue.length = cap

instance (c : Chan τ μ cap) : Decidable c.Full := inferInstanceAs (Decidable (_ = _))

/-- `send(m).await` of task `t`: the message is enqueued, or `t` blocks. -/
def send (c : Chan τ μ cap) (t : τ) (m : μ) : Chan τ μ cap :=
  if h : c.Full then
    { c with blocked := c.blocked ++ [(t, m)], blocked_full := fun _ => h }
  else
    { queue := c.queue ++ [m]
      blocked := c.blocked
      queue_le := by have := c.queue_le; rw [List.length_append]; unfold Full at h; simp; omega
      blocked_full := fun hb => absurd (c.blocked_full hb) h }

/-- What a receive yields: the message, the blocked sender it lets in and the
channel afterwards. -/
structure Received (τ μ : Type) (cap : Nat) where
  msg : μ
  admitted : Option τ
  chan : Chan τ μ cap

/-- `recv().await`: the oldest message, and the `j`-th blocked sender enqueues
when there are any. -/
def recv (c : Chan τ μ cap) (j : Nat) : Option (Received τ μ cap) :=
  match hq : c.queue with
  | [] => none
  | m :: q =>
    match hb : c.blocked[j]? with
    | some (t, m') => some
        { msg := m
          admitted := some t
          chan :=
            { queue := q ++ [m']
              blocked := c.blocked.eraseIdx j
              queue_le := by
                have := c.queue_le; rw [hq] at this
                rw [List.length_append]; exact this
              blocked_full := fun _ => by
                have hne : c.blocked ≠ [] := fun h => by rw [h] at hb; cases hb
                have := c.blocked_full hne; rw [hq] at this
                rw [List.length_append]; exact this } }
    | none =>
      if h : c.blocked = [] then some
        { msg := m
          admitted := none
          chan :=
            { queue := q
              blocked := []
              queue_le := by have := c.queue_le; rw [hq] at this; exact Nat.le_of_succ_le this
              blocked_full := fun h => absurd rfl h } }
      else none

/-- A blocked send of `t` is given up. -/
def cancel [DecidableEq τ] (c : Chan τ μ cap) (t : τ) : Chan τ μ cap :=
  { c with
    blocked := c.blocked.filter fun p => p.1 ≠ t
    blocked_full := fun h => c.blocked_full fun h0 => h (by rw [h0]; rfl) }

theorem send_of_full {c : Chan τ μ cap} {t : τ} {m : μ} (h : c.Full) :
    (c.send t m).queue = c.queue ∧ (c.send t m).blocked = c.blocked ++ [(t, m)] := by
  rw [send, dif_pos h]
  exact ⟨rfl, rfl⟩

theorem send_of_not_full {c : Chan τ μ cap} {t : τ} {m : μ} (h : ¬ c.Full) :
    (c.send t m).queue = c.queue ++ [m] ∧ (c.send t m).blocked = c.blocked := by
  rw [send, dif_neg h]
  exact ⟨rfl, rfl⟩

/-- A receive takes the head of the queue, and the sender it admits enqueues
behind the rest. -/
theorem recv_cases {c : Chan τ μ cap} {j : Nat} {r : Received τ μ cap}
    (h : c.recv j = some r) :
    ∃ q, c.queue = r.msg :: q ∧
      ((∃ t m', c.blocked[j]? = some (t, m') ∧ r.admitted = some t ∧
          r.chan.queue = q ++ [m'] ∧ r.chan.blocked = c.blocked.eraseIdx j) ∨
       (c.blocked = [] ∧ r.admitted = none ∧ r.chan.queue = q ∧ r.chan.blocked = [])) := by
  unfold recv at h
  split at h
  next => cases h
  next m q hq =>
    split at h
    next t m' hb =>
      obtain rfl := Option.some.inj h
      exact ⟨q, hq, Or.inl ⟨t, m', hb, rfl, rfl, rfl⟩⟩
    next hb =>
      split at h
      next hnil =>
        obtain rfl := Option.some.inj h
        exact ⟨q, hq, Or.inr ⟨hnil, rfl, rfl, rfl⟩⟩
      next => cases h

/-- Nobody is blocked by a receive. -/
theorem recv_blocked {c : Chan τ μ cap} {j : Nat} {r : Received τ μ cap}
    (h : c.recv j = some r) : r.chan.blocked.Sublist c.blocked := by
  obtain ⟨q, -, ⟨t, m', -, -, -, hbl⟩ | ⟨-, -, -, hbl⟩⟩ := recv_cases h
  · rw [hbl]
    exact List.eraseIdx_sublist _ _
  · rw [hbl]
    exact List.nil_sublist _

theorem fst_not_mem_eraseIdx {p : τ × μ} {l : List (τ × μ)} :
    ∀ {j : Nat}, (l.map Prod.fst).Nodup → l[j]? = some p → p.1 ∉ (l.eraseIdx j).map Prod.fst := by
  induction l with
  | nil => intro j _ h; cases h
  | cons x xs ih =>
    intro j hnd h
    obtain ⟨hx, hxs⟩ := List.nodup_cons.mp hnd
    cases j with
    | zero => rw [← show x = p from Option.some.inj h]; exact hx
    | succ j =>
      intro hmem
      rcases List.mem_cons.mp hmem with heq | hmem
      · exact hx (heq ▸ List.mem_map_of_mem (List.mem_of_getElem? h))
      · exact ih hxs h hmem

/-- The sender a receive lets in was blocked with its message, and is not any
more. -/
theorem recv_admitted {c : Chan τ μ cap} {j : Nat} {r : Received τ μ cap} {t : τ}
    (h : c.recv j = some r) (ht : r.admitted = some t) :
    ∃ m q, (t, m) ∈ c.blocked ∧ c.queue = r.msg :: q ∧ r.chan.queue = q ++ [m] ∧
      ((c.blocked.map Prod.fst).Nodup → t ∉ r.chan.blocked.map Prod.fst) := by
  obtain ⟨q, hq, ⟨t', m, hj, hadm, hqueue, hbl⟩ | ⟨-, hadm, -⟩⟩ := recv_cases h
  · obtain rfl : t' = t := Option.some.inj (hadm.symm.trans ht)
    exact ⟨m, q, List.mem_of_getElem? hj, hq, hqueue, fun hnd => hbl ▸ fst_not_mem_eraseIdx hnd hj⟩
  · rw [hadm] at ht
    cases ht

/-- Who is let in is the blocked one that was chosen. -/
theorem recv_admitted_eq {c : Chan τ μ cap} {j : Nat} {r : Received τ μ cap}
    (h : c.recv j = some r) : r.admitted = (c.blocked[j]?).map Prod.fst := by
  obtain ⟨q, -, ⟨t, m', hj, hadm, -, -⟩ | ⟨hnil, hadm, -, -⟩⟩ := recv_cases h
  · rw [hadm, hj]
    rfl
  · rw [hadm, hnil]
    rfl

/-- Without a blocked sender a receive only takes the head. -/
theorem recv_none {c : Chan τ μ cap} {j : Nat} {r : Received τ μ cap}
    (h : c.recv j = some r) (ht : r.admitted = none) : c.queue = r.msg :: r.chan.queue := by
  obtain ⟨q, hq, ⟨t', m, -, hadm, -⟩ | ⟨-, -, hqueue, -⟩⟩ := recv_cases h
  · rw [hadm] at ht
    cases ht
  · rw [hqueue]
    exact hq

/-- Something can be received from a channel that holds a message. -/
theorem recv_of_ne_nil {c : Chan τ μ cap} (h : c.queue ≠ []) : ∃ r, c.recv 0 = some r := by
  unfold recv
  split
  next hq => exact absurd hq h
  next m q hq =>
    split
    next => exact ⟨_, rfl⟩
    next hb =>
      have hnil : c.blocked = [] := by
        cases hbl : c.blocked with
        | nil => rfl
        | cons p ps => rw [hbl] at hb; cases hb
      exact ⟨_, dif_pos hnil⟩

end Chan

end BitTorrent
