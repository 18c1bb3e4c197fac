import BitTorrent.Lib.Run
import Mathlib.Data.List.Nodup
import Mathlib.Data.List.Perm.Subperm

/-!
# The messages of senders with one receiver

The books of a mailbox. A sender begins to send a message (`publish`), the
message enters the queue (`enqueue`) or is given up (`drop`), and the receiver
takes the oldest one (`receive`, which may let another message in at once). The
history of these events is kept as in `traced`, the most recent first.

`Balanced` says that the books balance: the queue is what was enqueued and not
received yet, in order, and what a sender published is what it enqueued, then
what it dropped, then the message it still holds. So nothing is lost,
duplicated, reordered or invented. Each event has its own lemma.

A message that is received does not name its sender, the event of its enqueueing
does. As the queue keeps the order, what was received is the beginning of what
was enqueued (`arrivals`), and so the senders are known.

The senders are of any type, and so are the messages. Nothing is said of when an
event can happen: a queue with a bound and one without have the same books.
-/

namespace BitTorrent.Mailbox

variable {κ μ β : Type}

/-- What happens to a message: a task comes to send it, it is enqueued, it is
received (and the next one of a blocked sender enqueued), or dropped. -/
inductive Event (κ μ : Type)
  | publish (k : κ) (m : μ)
  | enqueue (k : κ) (m : μ)
  | receive (m : μ) (next : Option (κ × μ))
  | drop (k : κ) (m : μ)
  deriving Repr

namespace Event

/-- The message that a task comes to send. -/
def published : Event κ μ → Option (κ × μ)
  | .publish k m => some (k, m)
  | _ => none

/-- The message that comes into the queue. -/
def enqueued : Event κ μ → Option (κ × μ)
  | .enqueue k m => some (k, m)
  | .receive _ next => next
  | _ => none

/-- The message that is received. -/
def received : Event κ μ → Option μ
  | .receive m _ => some m
  | _ => none

/-- The message whose send fails. -/
def dropped : Event κ μ → Option (κ × μ)
  | .drop k m => some (k, m)
  | _ => none

end Event

/-- What `f` reads off a history, in the order of time. -/
def log (f : Event κ μ → Option β) (h : List (Event κ μ)) : List β := h.reverse.filterMap f

@[simp] theorem log_nil (f : Event κ μ → Option β) : log f [] = [] := rfl

/-- The log of one event more. -/
@[simp] theorem log_cons (f : Event κ μ → Option β) (e : Event κ μ) (h : List (Event κ μ)) :
    log f (e :: h) = log f h ++ (f e).toList := by
  unfold log
  rw [List.reverse_cons, List.filterMap_append]
  cases hf : f e with
  | none => simp [hf]
  | some b => simp [hf]

/-- The messages of the sender `k`. -/
def ofSender [DecidableEq κ] (k : κ) (l : List (κ × μ)) : List μ :=
  (l.filter fun p => p.1 = k).map Prod.snd

section Sender

variable [DecidableEq κ] {k j : κ} {m : μ}

@[simp] theorem ofSender_nil (k : κ) : ofSender k ([] : List (κ × μ)) = [] := rfl

@[simp] theorem ofSender_append (k : κ) (l l' : List (κ × μ)) :
    ofSender k (l ++ l') = ofSender k l ++ ofSender k l' := by
  unfold ofSender
  rw [List.filter_append, List.map_append]

theorem ofSender_self (k : κ) (m : μ) : ofSender k [(k, m)] = [m] := by
  unfold ofSender
  simp

theorem ofSender_ne (h : j ≠ k) (m : μ) : ofSender k [(j, m)] = [] := by
  unfold ofSender
  simp [h]

/-- The messages of a sender, seen through `f`. -/
theorem ofSender_map (k : κ) (f : μ → β) (l : List (κ × μ)) :
    ofSender k (l.map fun p => (p.1, f p.2)) = (ofSender k l).map f := by
  unfold ofSender
  rw [List.filter_map, List.map_map, List.map_map]
  rfl

theorem ofSender_nodup (k : κ) {l : List (κ × μ)} (h : l.Nodup) : (ofSender k l).Nodup := by
  refine List.Nodup.map_on (fun p hp q hq heq => ?_) (h.filter _)
  have hpk := of_decide_eq_true (List.mem_filter.mp hp).2
  have hqk := of_decide_eq_true (List.mem_filter.mp hq).2
  exact Prod.ext (hpk.trans hqk.symm) heq

/-- The messages of a sender are those with its name. -/
theorem mem_ofSender {l : List (κ × μ)} : m ∈ ofSender k l ↔ (k, m) ∈ l := by
  unfold ofSender
  constructor
  · intro h
    obtain ⟨p, hp, rfl⟩ := List.mem_map.mp h
    obtain ⟨hp, hk⟩ := List.mem_filter.mp hp
    rw [← of_decide_eq_true hk]
    exact hp
  · intro h
    exact List.mem_map.mpr ⟨_, List.mem_filter.mpr ⟨h, decide_eq_true rfl⟩, rfl⟩

/-- How often a sender's message is there. -/
theorem count_ofSender [DecidableEq μ] (k : κ) (m : μ) (l : List (κ × μ)) :
    (ofSender k l).count m = l.count (k, m) := by
  induction l with
  | nil => rfl
  | cons p l ih =>
    have hcons : ofSender k (p :: l) = ofSender k [p] ++ ofSender k l := ofSender_append k [p] l
    rw [hcons, List.count_append, ih, List.count_cons]
    by_cases hpk : p.1 = k
    · obtain ⟨j, m'⟩ := p
      obtain rfl : j = k := hpk
      rw [ofSender_self, List.count_singleton]
      simp [Nat.add_comm]
    · have hne : p ≠ (k, m) := fun heq => hpk (congrArg Prod.fst heq)
      rw [show p = (p.1, p.2) from rfl, ofSender_ne hpk]
      simp [hne]

end Sender

/-- The books of the history `h` balance: `queue` is in the queue, the sender `k`
holds `holding k`, and nothing was dropped before the mailbox was `closed`. -/
structure Balanced [DecidableEq κ] (h : List (Event κ μ)) (queue : List μ)
    (holding : κ → Option μ) (closed : Bool) : Prop where
  queue : (log Event.enqueued h).map Prod.snd = log Event.received h ++ queue
  sender : ∀ k, ofSender k (log Event.published h) =
    ofSender k (log Event.enqueued h) ++ ofSender k (log Event.dropped h) ++ (holding k).toList
  kept : closed = false → log Event.dropped h = []

namespace Balanced

variable [DecidableEq κ] {h : List (Event κ μ)} {queue : List μ} {holding holding' : κ → Option μ}
variable {closed : Bool} {k : κ} {m : μ}

theorem nil : Balanced ([] : List (Event κ μ)) [] (fun _ => none) closed where
  queue := rfl
  sender := fun _ => rfl
  kept := fun _ => rfl

/-- A step without an event. The mailbox may be closed by it. -/
theorem quiet (hb : Balanced h queue holding closed) (hh : ∀ j, holding' j = holding j)
    {closed' : Bool} (hc : closed' = false → closed = false) :
    Balanced h queue holding' closed' where
  queue := hb.queue
  sender := fun j => by rw [hh j]; exact hb.sender j
  kept := fun hopen => hb.kept (hc hopen)

/-- A sender that holds nothing begins to send. -/
theorem publish (hb : Balanced h queue holding closed) (hnone : holding k = none)
    (hk : holding' k = some m) (hh : ∀ j, j ≠ k → holding' j = holding j) :
    Balanced (.publish k m :: h) queue holding' closed where
  queue := by simpa [Event.enqueued, Event.received] using hb.queue
  sender := fun j => by
    have hj := hb.sender j
    by_cases hjk : j = k
    · subst hjk
      rw [hnone] at hj
      simp [Event.published, Event.enqueued, Event.dropped, hj, hk, ofSender_self]
    · simp [Event.published, Event.enqueued, Event.dropped, hj, hh j hjk,
        ofSender_ne (Ne.symm hjk)]
  kept := by simpa [Event.dropped] using hb.kept

/-- The message of `k` enters the queue. -/
theorem enqueue (hb : Balanced h queue holding false) (hk : holding k = some m)
    (hnone : holding' k = none) (hh : ∀ j, j ≠ k → holding' j = holding j) :
    Balanced (.enqueue k m :: h) (queue ++ [m]) holding' false where
  queue := by simp [Event.enqueued, Event.received, hb.queue]
  sender := fun j => by
    have hj := hb.sender j
    rw [hb.kept rfl] at hj
    by_cases hjk : j = k
    · subst hjk
      rw [hk] at hj
      simp [Event.published, Event.enqueued, Event.dropped, hj, hnone, ofSender_self, hb.kept rfl]
    · simp [Event.published, Event.enqueued, Event.dropped, hj, hh j hjk,
        ofSender_ne (Ne.symm hjk), hb.kept rfl]
  kept := fun _ => by simp [Event.dropped, hb.kept rfl]

/-- The oldest message is received. -/
theorem receive (hb : Balanced h (m :: queue) holding closed) :
    Balanced (.receive m none :: h) queue holding closed where
  queue := by simp [Event.enqueued, Event.received, hb.queue]
  sender := fun j => by
    simp [Event.published, Event.enqueued, Event.dropped, hb.sender j]
  kept := by simpa [Event.dropped] using hb.kept

/-- And the message of `k` enters the queue in its stead. -/
theorem receive_next {m' : μ} (hb : Balanced h (m' :: queue) holding false)
    (hk : holding k = some m) (hnone : holding' k = none)
    (hh : ∀ j, j ≠ k → holding' j = holding j) :
    Balanced (.receive m' (some (k, m)) :: h) (queue ++ [m]) holding' false where
  queue := by simp [Event.enqueued, Event.received, hb.queue]
  sender := fun j => by
    have hj := (hb.receive.enqueue hk hnone hh).sender j
    simpa [Event.published, Event.enqueued, Event.dropped] using hj
  kept := fun _ => by simp [Event.dropped, hb.kept rfl]

/-- The message of `k` is given up. -/
theorem drop (hb : Balanced h queue holding true) (hk : holding k = some m)
    (hnone : holding' k = none) (hh : ∀ j, j ≠ k → holding' j = holding j) :
    Balanced (.drop k m :: h) queue holding' true where
  queue := by simpa [Event.enqueued, Event.received] using hb.queue
  sender := fun j => by
    have hj := hb.sender j
    by_cases hjk : j = k
    · subst hjk
      rw [hk] at hj
      simp [Event.published, Event.enqueued, Event.dropped, hj, hnone, ofSender_self]
    · simp [Event.published, Event.enqueued, Event.dropped, hj, hh j hjk,
        ofSender_ne (Ne.symm hjk)]
  kept := fun h => by cases h

end Balanced

/-! ## What was received -/

/-- The messages that were received, with their senders, in order. -/
def arrivals (h : List (Event κ μ)) : List (κ × μ) :=
  (log Event.enqueued h).take (log Event.received h).length

section Arrivals

variable [DecidableEq κ] {h : List (Event κ μ)} {queue : List μ} {holding : κ → Option μ}
variable {closed : Bool}

/-- They are the messages that were received. -/
theorem Balanced.arrivals_map (hb : Balanced h queue holding closed) :
    (arrivals h).map Prod.snd = log Event.received h := by
  unfold arrivals
  rw [List.map_take, hb.queue, List.take_left]

/-- And each sender published those that came from it. -/
theorem Balanced.arrivals_sublist (hb : Balanced h queue holding closed) (k : κ) :
    (ofSender k (arrivals h)).Sublist (ofSender k (log Event.published h)) := by
  have htake : (ofSender k (arrivals h)).Sublist (ofSender k (log Event.enqueued h)) :=
    ((List.take_sublist _ _).filter _).map _
  refine htake.trans ?_
  rw [hb.sender k, List.append_assoc]
  exact List.sublist_append_left _ _

theorem Balanced.published_of_arrival (hb : Balanced h queue holding closed) {p : κ × μ}
    (hp : p ∈ arrivals h) : p ∈ log Event.published h :=
  mem_ofSender.mp ((hb.arrivals_sublist p.1).subset (mem_ofSender.mpr hp))

/-- Each message is received at most as often as it was published. -/
theorem Balanced.received_length_le [DecidableEq μ] (hb : Balanced h queue holding closed) :
    (log Event.received h).length ≤ (log Event.published h).length := by
  have hsub : (arrivals h).Subperm (log Event.published h) := by
    refine List.subperm_ext_iff.mpr fun p _ => ?_
    obtain ⟨k, m⟩ := p
    rw [← count_ofSender, ← count_ofSender]
    exact (hb.arrivals_sublist k).count_le m
  have hlen := congrArg List.length hb.arrivals_map
  rw [List.length_map] at hlen
  rw [← hlen]
  exact hsub.length_le

end Arrivals

end BitTorrent.Mailbox
