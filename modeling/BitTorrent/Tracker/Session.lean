import BitTorrent.Lib.Run
import BitTorrent.Tracker.Udp

/-!
# One `UdpTracker` over time (`tracker/udp.rs`)

`connect`, and then any number of calls of `announce`, with everything that
happens in between: the clock, the answers of the tracker, the timers. The task is
cut where it awaits something, and `Phase` says where. What it does between two
awaits is one step, by the functions of `Tracker.Udp`.

The network is what UDP makes of it. Requests are numbered in the order in which
they are sent; an answer comes with the number of its request, which the code does
not see. The tracker answers a request at most once, with any bytes, in any order
and at any time; a datagram waits in the socket until it is received. Requests and
answers may be lost, and `recv_buf` may fail.

A timer fires when it is due or later. It only ends an attempt for which no
datagram waits, since `tokio::time::timeout` polls the attempt first. The two
timers of a nested `get_conn_id` are two events (`timeout`, `attemptTimeout`).

Left out:

* what `connect` does before its `get_conn_id`: the socket, the URL, the address.
  `Session.new` starts behind it, and the port of `peer_addr` is a field;
* datagrams that answer no request, and second answers to one. The socket is
  connected, so nobody else can send them;
* the time that a step takes. The clock moves in between (`tick`), so each step
  reads it once;
* what is printed, and the texts of the errors that are only printed.

`Stepped` is the inversion of `step`, and what is said of a step in the later files
is derived from it.

* `announce_returns_iff` — the peers of a response that is received are returned
  exactly when the response fits into what is left of the buffer;
* `unspoiled_iff` — an attempt reads one datagram, whichever comes first. That is
  its own answer throughout a run, and an answer that says success is returned,
  exactly when in each step the answer that arrives is to the request awaited and
  fits, and the socket is empty when a request is sent.
-/

namespace BitTorrent

namespace Udp

/-- `RETRY_TIMEOUT`, in seconds. -/
def retryTimeout : List Nat := [15, 45, 105]

/-- One round of the loop in `announce`; `rest` are the timeouts of the next ones. -/
structure Attempt where
  args : Announce
  deadline : Nat
  rest : List Nat
  deriving DecidableEq, Repr

/-- Who waits for the connection id. -/
inductive Caller
  | connect
  | announce (a : Attempt)
  deriving DecidableEq, Repr

/-- Where the task is. `returned` is the result of `announce`, `refused` an error
of `connect`. -/
inductive Phase
  | getConnId (caller : Caller) (deadline : Nat) (rest : List Nat)
  | awaitConnId (caller : Caller) (deadline : Nat) (rest : List Nat) (txId : UInt32) (r : Nat)
  | idle
  | sendAnnounce (a : Attempt)
  | request (a : Attempt)
  | awaitAnnounce (a : Attempt) (txId : UInt32) (r : Nat)
  | returned (res : Except TrackerError (List SocketAddr × UInt32))
  | refused
  | panicked
  deriving DecidableEq, Repr

/-- The request whose answer is awaited. -/
def Phase.awaited : Phase → Option Nat
  | .awaitConnId _ _ _ _ r | .awaitAnnounce _ _ r => some r
  | _ => none

/-- The next step is a request. -/
def Phase.Asking : Phase → Prop
  | .getConnId _ _ _ | .request _ => True
  | _ => False

/-- The tracker, where its task is, and the network: how many requests were sent,
which of them the tracker has not answered, and the datagrams in the socket with the
number of the request they answer. -/
structure Session where
  now : Nat
  tracker : UdpTracker
  phase : Phase
  asked : Nat
  outstanding : List Nat
  inbox : List (Nat × List UInt8)
  deriving DecidableEq, Repr

/-- What happens. `answer r` is a datagram that arrives for the request `r`, `enter`
the start of `send_announce`, `ask` a request with its random transaction id, `recv`
and `recvErr` the end of `recv_buf`; `timeout` and `attemptTimeout` are timers that
fire. -/
inductive Event
  | tick (d : Nat)
  | answer (r : Nat) (datagram : List UInt8)
  | call (args : Announce)
  | enter
  | ask (txId : UInt32) (grow : Nat) (sent : Bool)
  | recv
  | recvErr
  | timeout
  | attemptTimeout
  deriving DecidableEq, Repr

/-- `connect` up to its `get_conn_id`. -/
def Session.new (now : Nat) (peerPort : UInt16) (key : UInt32) : Session where
  now := now
  tracker :=
    { peerPort, buf := .withCapacity 512, key, connId := 0, connIdTs := now, nextAnnounce := now }
  phase := .getConnId .connect (now + secs 5) []
  asked := 0
  outstanding := []
  inbox := []

/-! ## Steps -/

/-- The next round of the loop in `announce`. -/
def nextAttempt (now : Nat) (args : Announce) : List Nat → Phase
  | [] => .returned (.error .noConnId)
  | timeout :: rest => .sendAnnounce { args, deadline := now + secs timeout, rest }

/-- The next round of the loop in `retry_get_conn_id`. After the last one the
caller fails. -/
def nextConnId (now : Nat) (caller : Caller) : List Nat → Phase
  | timeout :: rest => .getConnId caller (now + secs timeout) rest
  | [] =>
    match caller with
    | .connect => .refused
    | .announce a => nextAttempt now a.args a.rest

/-- What holds of a loop that is over and of one that goes on holds of the next
round. -/
theorem nextAttempt_of {P : Phase → Prop} (hover : P (.returned (.error .noConnId)))
    (hnext : ∀ a, P (.sendAnnounce a)) (now : Nat) (args : Announce) (rest : List Nat) :
    P (nextAttempt now args rest) := by
  cases rest with
  | nil => exact hover
  | cons timeout rest => exact hnext _

/-- What holds of both loops when they are over, and of the one for the connection
id when it goes on, holds of its next round. -/
theorem nextConnId_of {P : Phase → Prop}
    (hget : ∀ caller deadline rest, P (.getConnId caller deadline rest)) (hrefused : P .refused)
    (hattempt : ∀ now args rest, P (nextAttempt now args rest)) (now : Nat) (caller : Caller)
    (rest : List Nat) : P (nextConnId now caller rest) := by
  cases rest with
  | cons timeout rest => exact hget _ _ _
  | nil =>
    cases caller with
    | connect => exact hrefused
    | announce a => exact hattempt now a.args a.rest

theorem awaited_nextAttempt (now : Nat) (args : Announce) (rest : List Nat) :
    (nextAttempt now args rest).awaited = none :=
  nextAttempt_of (P := fun phase => phase.awaited = none) rfl (fun _ => rfl) now args rest

theorem awaited_nextConnId (now : Nat) (caller : Caller) (rest : List Nat) :
    (nextConnId now caller rest).awaited = none :=
  nextConnId_of (P := fun phase => phase.awaited = none) (fun _ _ _ => rfl) rfl
    awaited_nextAttempt now caller rest

/-- The loop in `announce` does not panic. -/
theorem nextAttempt_ne_panicked (now : Nat) (args : Announce) (rest : List Nat) :
    nextAttempt now args rest ≠ .panicked :=
  nextAttempt_of (P := fun phase => phase ≠ .panicked) nofun (fun _ => nofun) now args rest

theorem nextConnId_ne_panicked (now : Nat) (caller : Caller) (rest : List Nat) :
    nextConnId now caller rest ≠ .panicked :=
  nextConnId_of (P := fun phase => phase ≠ .panicked) (fun _ _ _ => nofun) nofun
    nextAttempt_ne_panicked now caller rest

/-- Where `get_conn_id` was called from. -/
def afterConnId : Caller → Phase
  | .connect => .idle
  | .announce a => .request a

/-- An error ends the round, a panic the task. -/
def afterFailure (next : Phase) : Failure → Phase
  | .error _ => next
  | .panicked => .panicked

namespace Session

/-- `send_announce` up to the request. -/
def enter (σ : Session) (a : Attempt) : Phase :=
  if σ.now < σ.tracker.nextAnnounce then nextAttempt σ.now a.args a.rest
  else if secs 60 < σ.now - σ.tracker.connIdTs then
    nextConnId σ.now (.announce a) retryTimeout
  else .request a

/-- The request `m`; its answer is awaited in `await`. -/
def ask (σ : Session) (m : TrackerM Unit) (await : Nat → Phase) (next : Phase) : Session :=
  match m σ.tracker with
  | (.ok (), tracker) =>
    { σ with
      tracker, phase := await σ.asked, asked := σ.asked + 1,
      outstanding := σ.outstanding ++ [σ.asked] }
  | (.error e, tracker) => { σ with tracker, phase := afterFailure next e }

/-- What `m` makes of the answer. -/
def reply {α : Type} (σ : Session) (m : TrackerM α) (done : α → Phase) (next : Phase) : Session :=
  match m σ.tracker with
  | (.ok a, tracker) => { σ with tracker, phase := done a }
  | (.error e, tracker) => { σ with tracker, phase := afterFailure next e }

/-- A step of the session. `none` is an event that cannot happen now. -/
def step (σ : Session) : Event → Option Session
  | .tick d => some { σ with now := σ.now + d }
  | .answer r datagram =>
    if r ∈ σ.outstanding then
      some { σ with
        outstanding := σ.outstanding.erase r, inbox := σ.inbox ++ [(r, datagram)] }
    else none
  -- `announce` is called when nothing of the tracker is running
  | .call args =>
    match σ.phase with
    | .idle | .returned _ => some { σ with phase := nextAttempt σ.now args retryTimeout }
    | _ => none
  | .enter =>
    match σ.phase with
    | .sendAnnounce a => some { σ with phase := σ.enter a }
    | _ => none
  | .ask txId grow sent =>
    match σ.phase with
    | .getConnId caller deadline rest =>
      some (σ.ask (askConnId txId grow sent) (.awaitConnId caller deadline rest txId)
        (nextConnId σ.now caller rest))
    | .request a =>
      some (σ.ask (askAnnounce a.args txId grow sent) (.awaitAnnounce a txId)
        (nextAttempt σ.now a.args a.rest))
    | _ => none
  -- the first datagram of the socket, whatever request it answers
  | .recv =>
    match σ.inbox, σ.phase with
    | (_, datagram) :: inbox, .awaitConnId caller _ rest txId _ =>
      some ({ σ with inbox }.reply (connIdReply txId datagram σ.now)
        (fun () => afterConnId caller) (nextConnId σ.now caller rest))
    | (_, datagram) :: inbox, .awaitAnnounce a txId _ =>
      some ({ σ with inbox }.reply (announceReply txId datagram σ.now)
        (fun res => .returned (.ok res)) (nextAttempt σ.now a.args a.rest))
    | _, _ => none
  | .recvErr =>
    match σ.phase with
    | .awaitConnId caller _ rest _ _ => some { σ with phase := nextConnId σ.now caller rest }
    | .awaitAnnounce a _ _ => some { σ with phase := nextAttempt σ.now a.args a.rest }
    | _ => none
  -- the timer of `get_conn_id`, or of `send_announce` while it waits itself
  | .timeout =>
    match σ.inbox, σ.phase with
    | [], .awaitConnId caller deadline rest _ _ =>
      if deadline ≤ σ.now then some { σ with phase := nextConnId σ.now caller rest } else none
    | [], .awaitAnnounce a _ _ =>
      if a.deadline ≤ σ.now then some { σ with phase := nextAttempt σ.now a.args a.rest }
      else none
    | _, _ => none
  -- the timer of `send_announce` while it retries `get_conn_id`
  | .attemptTimeout =>
    match σ.inbox, σ.phase with
    | [], .awaitConnId (.announce a) _ _ _ _ =>
      if a.deadline ≤ σ.now then some { σ with phase := nextAttempt σ.now a.args a.rest }
      else none
    | _, _ => none

section Steps

variable {σ σ' : Session} {e : Event} {next : Phase}

/-- A step that sends a request. -/
structure Asks (σ σ' : Session) : Prop where
  awaited : σ'.phase.awaited = some σ.asked
  asked : σ'.asked = σ.asked + 1
  outstanding : σ'.outstanding = σ.outstanding ++ [σ.asked]
  inbox : σ'.inbox = σ.inbox
  received : σ'.tracker.buf.data = []

/-- A step after which nothing is awaited, and that sends nothing. -/
structure Idles (σ σ' : Session) : Prop where
  awaited : σ'.phase.awaited = none
  asked : σ'.asked = σ.asked
  outstanding : σ'.outstanding = σ.outstanding
  inbox : ∀ d ∈ σ'.inbox, d ∈ σ.inbox

/-- The start of `send_announce` awaits nothing. -/
theorem awaited_enter (σ : Session) (a : Attempt) : (σ.enter a).awaited = none := by
  unfold enter
  split
  next => exact awaited_nextAttempt ..
  next =>
    split
    next => exact awaited_nextConnId ..
    next => rfl

theorem enter_ne_panicked (σ : Session) (a : Attempt) : σ.enter a ≠ .panicked := by
  unfold enter
  split
  next => exact nextAttempt_ne_panicked _ _ _
  next =>
    split
    next => exact nextConnId_ne_panicked _ _ _
    next => nofun

/-- The steps that only move the task from one phase to another. -/
inductive Turns (σ : Session) : Event → Phase → Prop
  | call {args : Announce} (hphase : σ.phase = .idle ∨ ∃ res, σ.phase = .returned res) :
    Turns σ (.call args) (nextAttempt σ.now args retryTimeout)
  | enter {a : Attempt} (hphase : σ.phase = .sendAnnounce a) : Turns σ .enter (σ.enter a)
  | connIdLost {e : Event} {caller : Caller} {deadline r : Nat} {rest : List Nat} {txId : UInt32}
    (he : e = .recvErr ∨ e = .timeout)
    (hphase : σ.phase = .awaitConnId caller deadline rest txId r) :
    Turns σ e (nextConnId σ.now caller rest)
  | announceLost {e : Event} {a : Attempt} {r : Nat} {txId : UInt32}
    (he : e = .recvErr ∨ e = .timeout) (hphase : σ.phase = .awaitAnnounce a txId r) :
    Turns σ e (nextAttempt σ.now a.args a.rest)
  | attemptLost {a : Attempt} {deadline r : Nat} {rest : List Nat} {txId : UInt32}
    (hphase : σ.phase = .awaitConnId (.announce a) deadline rest txId r) :
    Turns σ .attemptTimeout (nextAttempt σ.now a.args a.rest)

/-- **All steps**, by the phase they start from. What is said of a step anywhere is
derived from this. -/
inductive Stepped (σ : Session) : Event → Session → Prop
  | tick (d : Nat) : Stepped σ (.tick d) { σ with now := σ.now + d }
  | answer {r : Nat} {datagram : List UInt8} (hr : r ∈ σ.outstanding) :
    Stepped σ (.answer r datagram)
      { σ with outstanding := σ.outstanding.erase r, inbox := σ.inbox ++ [(r, datagram)] }
  | turn {e : Event} {phase : Phase} (h : Turns σ e phase) : Stepped σ e { σ with phase }
  | askConnId {caller : Caller} {deadline : Nat} {rest : List Nat} {txId : UInt32} {grow : Nat}
    {sent : Bool} (hphase : σ.phase = .getConnId caller deadline rest) :
    Stepped σ (.ask txId grow sent)
      (σ.ask (Udp.askConnId txId grow sent) (.awaitConnId caller deadline rest txId)
        (nextConnId σ.now caller rest))
  | askAnnounce {a : Attempt} {txId : UInt32} {grow : Nat} {sent : Bool}
    (hphase : σ.phase = .request a) :
    Stepped σ (.ask txId grow sent)
      (σ.ask (Udp.askAnnounce a.args txId grow sent) (.awaitAnnounce a txId)
        (nextAttempt σ.now a.args a.rest))
  | recvConnId {q r deadline : Nat} {datagram : List UInt8} {inbox : List (Nat × List UInt8)}
    {caller : Caller} {rest : List Nat} {txId : UInt32} (hinbox : σ.inbox = (q, datagram) :: inbox)
    (hphase : σ.phase = .awaitConnId caller deadline rest txId r) :
    Stepped σ .recv ({ σ with inbox }.reply (connIdReply txId datagram σ.now)
      (fun () => afterConnId caller) (nextConnId σ.now caller rest))
  | recvAnnounce {q r : Nat} {datagram : List UInt8} {inbox : List (Nat × List UInt8)}
    {a : Attempt} {txId : UInt32} (hinbox : σ.inbox = (q, datagram) :: inbox)
    (hphase : σ.phase = .awaitAnnounce a txId r) :
    Stepped σ .recv ({ σ with inbox }.reply (announceReply txId datagram σ.now)
      (fun res => .returned (.ok res)) (nextAttempt σ.now a.args a.rest))

/-- Nothing is received, nothing awaited afterwards, and nothing panics. -/
theorem Turns.spec {phase : Phase} (h : Turns σ e phase) :
    e ≠ .recv ∧ phase.awaited = none ∧ phase ≠ .panicked := by
  cases h with
  | call => exact ⟨nofun, awaited_nextAttempt .., nextAttempt_ne_panicked _ _ _⟩
  | enter => exact ⟨nofun, awaited_enter .., enter_ne_panicked _ _⟩
  | connIdLost he =>
    exact ⟨by rcases he with rfl | rfl <;> exact nofun, awaited_nextConnId ..,
      nextConnId_ne_panicked _ _ _⟩
  | announceLost he =>
    exact ⟨by rcases he with rfl | rfl <;> exact nofun, awaited_nextAttempt ..,
      nextAttempt_ne_panicked _ _ _⟩
  | attemptLost => exact ⟨nofun, awaited_nextAttempt .., nextAttempt_ne_panicked _ _ _⟩

/-- Every step is one of these. -/
theorem stepped_of_step (h : σ.step e = some σ') : Stepped σ e σ' := by
  cases e with
  | tick d =>
    obtain rfl := Option.some.inj h
    exact .tick d
  | answer r datagram =>
    change (if r ∈ σ.outstanding then some _ else none) = some σ' at h
    split at h
    next hr =>
      obtain rfl := Option.some.inj h
      exact .answer hr
    next => cases h
  | call args =>
    simp only [step] at h
    split at h
    next hphase =>
      obtain rfl := Option.some.inj h
      exact .turn (.call (Or.inl hphase))
    next hphase =>
      obtain rfl := Option.some.inj h
      exact .turn (.call (Or.inr ⟨_, hphase⟩))
    next => cases h
  | enter =>
    simp only [step] at h
    split at h
    next a hphase =>
      obtain rfl := Option.some.inj h
      exact .turn (.enter hphase)
    next => cases h
  | ask txId grow sent =>
    simp only [step] at h
    split at h
    next hphase =>
      obtain rfl := Option.some.inj h
      exact .askConnId hphase
    next hphase =>
      obtain rfl := Option.some.inj h
      exact .askAnnounce hphase
    next => cases h
  | recv =>
    simp only [step] at h
    split at h
    next hinbox hphase =>
      obtain rfl := Option.some.inj h
      exact .recvConnId hinbox hphase
    next hinbox hphase =>
      obtain rfl := Option.some.inj h
      exact .recvAnnounce hinbox hphase
    next => cases h
  | recvErr =>
    simp only [step] at h
    split at h
    next hphase =>
      obtain rfl := Option.some.inj h
      exact .turn (.connIdLost (Or.inl rfl) hphase)
    next hphase =>
      obtain rfl := Option.some.inj h
      exact .turn (.announceLost (Or.inl rfl) hphase)
    next => cases h
  | timeout =>
    simp only [step] at h
    split at h
    next hphase =>
      split at h
      next =>
        obtain rfl := Option.some.inj h
        exact .turn (.connIdLost (Or.inr rfl) hphase)
      next => cases h
    next hphase =>
      split at h
      next =>
        obtain rfl := Option.some.inj h
        exact .turn (.announceLost (Or.inr rfl) hphase)
      next => cases h
    next => cases h
  | attemptTimeout =>
    simp only [step] at h
    split at h
    next hphase =>
      split at h
      next =>
        obtain rfl := Option.some.inj h
        exact .turn (.attemptLost hphase)
      next => cases h
    next => cases h

theorem idles_of_phase {phase : Phase} (h : phase.awaited = none) :
    Idles σ { σ with phase } := ⟨h, rfl, rfl, fun _ hd => hd⟩

theorem ask_sent {m : TrackerM Unit} {await : Nat → Phase}
    (hm : ∃ t', m σ.tracker = (.ok (), t') ∧ t'.buf.data = [])
    (hawait : (await σ.asked).awaited = some σ.asked) : Asks σ (σ.ask m await next) := by
  obtain ⟨t', hok, hempty⟩ := hm
  unfold ask
  rw [hok]
  exact ⟨hawait, rfl, rfl, rfl, hempty⟩

theorem ask_unsent {m : TrackerM Unit} {await : Nat → Phase}
    (hm : ∃ t', m σ.tracker = (.error (.error .io), t')) (hnext : next.awaited = none) :
    Idles σ (σ.ask m await next) := by
  obtain ⟨t', herr⟩ := hm
  unfold ask
  rw [herr]
  exact ⟨hnext, rfl, rfl, fun _ hd => hd⟩

theorem reply_idles {α : Type} {m : TrackerM α} {done : α → Phase} {inbox : List (Nat × List UInt8)}
    (hinbox : ∀ d ∈ inbox, d ∈ σ.inbox) (hdone : ∀ a, (done a).awaited = none)
    (hnext : next.awaited = none) : Idles σ ({ σ with inbox }.reply m done next) := by
  unfold reply
  cases hm : m σ.tracker with
  | mk res tracker =>
    cases res with
    | ok a => exact ⟨hdone a, rfl, rfl, hinbox⟩
    | error e =>
      cases e with
      | error e => exact ⟨hnext, rfl, rfl, hinbox⟩
      | panicked => exact ⟨rfl, rfl, rfl, hinbox⟩

theorem now_ask {m : TrackerM Unit} {await : Nat → Phase} : (σ.ask m await next).now = σ.now := by
  unfold ask
  cases h : m σ.tracker with
  | mk res tracker => cases res <;> rfl

theorem now_reply {α : Type} {m : TrackerM α} {done : α → Phase} :
    (σ.reply m done next).now = σ.now := by
  unfold reply
  cases h : m σ.tracker with
  | mk res tracker => cases res <;> rfl

/-- Where a request leads. -/
theorem phase_ask {P : Phase → Prop} {m : TrackerM Unit} {await : Nat → Phase}
    (hawait : ∀ r, P (await r)) (hnext : P next) (hpanicked : P .panicked) :
    P (σ.ask m await next).phase := by
  unfold ask
  cases h : m σ.tracker with
  | mk res tracker =>
    cases res with
    | ok u => exact hawait _
    | error err =>
      cases err with
      | error e => exact hnext
      | panicked => exact hpanicked

/-- Where an answer leads. -/
theorem phase_reply {α : Type} {P : Phase → Prop} {m : TrackerM α} {done : α → Phase}
    (hdone : ∀ a, P (done a)) (hnext : P next) (hpanicked : P .panicked) :
    P (σ.reply m done next).phase := by
  unfold reply
  cases h : m σ.tracker with
  | mk res tracker =>
    cases res with
    | ok a => exact hdone a
    | error err =>
      cases err with
      | error e => exact hnext
      | panicked => exact hpanicked

/-- What a step does to the books. -/
inductive Moves (σ : Session) : Event → Session → Prop
  | tick (d : Nat) : Moves σ (.tick d) { σ with now := σ.now + d }
  | answer {r : Nat} {datagram : List UInt8} (hr : r ∈ σ.outstanding) :
    Moves σ (.answer r datagram)
      { σ with outstanding := σ.outstanding.erase r, inbox := σ.inbox ++ [(r, datagram)] }
  | ask {txId : UInt32} {grow : Nat} {σ' : Session} (hasking : σ.phase.Asking) (h : Asks σ σ') :
    Moves σ (.ask txId grow true) σ'
  | idle {e : Event} {σ' : Session} (h : Idles σ σ') : Moves σ e σ'

/-- Every step asks, receives, or leaves nothing awaited. -/
theorem moves_of_step (h : σ.step e = some σ') : Moves σ e σ' := by
  cases stepped_of_step h with
  | tick d => exact .tick d
  | answer hr => exact .answer hr
  | turn hturn => exact .idle (idles_of_phase hturn.spec.2.1)
  | @askConnId caller deadline rest txId grow sent hphase =>
    cases sent with
    | true =>
      refine .ask ?_ (ask_sent (askConnId_sent ..) rfl)
      rw [hphase]
      trivial
    | false => exact .idle (ask_unsent (askConnId_unsent ..) (awaited_nextConnId ..))
  | @askAnnounce a txId grow sent hphase =>
    cases sent with
    | true =>
      refine .ask ?_ (ask_sent (askAnnounce_sent ..) rfl)
      rw [hphase]
      trivial
    | false => exact .idle (ask_unsent (askAnnounce_unsent ..) (awaited_nextAttempt ..))
  -- whatever the reply is, nothing is awaited after it
  | @recvConnId _ _ _ _ _ caller _ _ hinbox _ =>
    refine .idle (reply_idles ?_ (fun _ => ?_) (awaited_nextConnId ..))
    · intro d hd
      rw [hinbox]
      exact List.mem_cons_of_mem _ hd
    · cases caller <;> rfl
  | recvAnnounce hinbox _ =>
    refine .idle (reply_idles ?_ (fun _ => rfl) (awaited_nextAttempt ..))
    intro d hd
    rw [hinbox]
    exact List.mem_cons_of_mem _ hd

/-- The books of every run: a request that is outstanding has not been answered
yet, and the buffer is empty while an answer is awaited. -/
structure Inv (σ : Session) : Prop where
  nodup : σ.outstanding.Nodup
  asked : ∀ r ∈ σ.outstanding, r < σ.asked
  answered : ∀ d ∈ σ.inbox, d.1 < σ.asked
  received : ∀ r, σ.phase.awaited = some r → σ.tracker.buf.data = []

theorem Inv.new (now : Nat) (peerPort : UInt16) (key : UInt32) : Inv (new now peerPort key) where
  nodup := List.nodup_nil
  asked := nofun
  answered := nofun
  received := nofun

theorem Asks.inv (h : Asks σ σ') (hinv : Inv σ) : Inv σ' where
  nodup := by
    rw [h.outstanding]
    refine List.nodup_append.mpr ⟨hinv.nodup, List.pairwise_singleton .., ?_⟩
    intro r hr q hq
    have := hinv.asked r hr
    rw [List.mem_singleton.mp hq]
    omega
  asked := by
    intro r hr
    rw [h.outstanding, List.mem_append, List.mem_singleton] at hr
    rw [h.asked]
    rcases hr with hr | rfl
    · have := hinv.asked r hr
      omega
    · omega
  answered := by
    intro d hd
    rw [h.inbox] at hd
    have := hinv.answered d hd
    rw [h.asked]
    omega
  received := fun _ _ => h.received

theorem Idles.inv (h : Idles σ σ') (hinv : Inv σ) : Inv σ' where
  nodup := by rw [h.outstanding]; exact hinv.nodup
  asked := by rw [h.outstanding, h.asked]; exact hinv.asked
  answered := by
    intro d hd
    rw [h.asked]
    exact hinv.answered d (h.inbox d hd)
  received := by
    intro r hr
    rw [h.awaited] at hr
    cases hr

/-- One step keeps the invariant. -/
theorem Inv.step (hinv : Inv σ) (h : σ.step e = some σ') : Inv σ' := by
  cases moves_of_step h with
  | tick d => exact ⟨hinv.nodup, hinv.asked, hinv.answered, hinv.received⟩
  | @answer r datagram hr =>
    refine ⟨hinv.nodup.erase r, ?_, ?_, hinv.received⟩
    · intro q hq
      exact hinv.asked q (List.mem_of_mem_erase hq)
    · intro d hd
      rw [List.mem_append, List.mem_singleton] at hd
      rcases hd with hd | rfl
      · exact hinv.answered d hd
      · exact hinv.asked r hr
  | ask _ hasks => exact hasks.inv hinv
  | idle hidles => exact hidles.inv hinv

end Steps

/-! ## The peers of a response -/

section Response

variable {now q r : Nat} {peerPort : UInt16} {key txId interval leechers seeders : UInt32}
  {as : List Event} {σ : Session} {a : Attempt} {peers : List SocketAddr}
  {inbox : List (Nat × List UInt8)}

theorem nextAttempt_ne_ok (now : Nat) (args : Announce) (rest : List Nat)
    (res : List SocketAddr × UInt32) : nextAttempt now args rest ≠ .returned (.ok res) :=
  nextAttempt_of (P := fun phase => phase ≠ .returned (.ok res)) nofun (fun _ => nofun)
    now args rest

/-- `announce` returns what `announceReply` does. -/
theorem recv_returned_iff {datagram : List UInt8} {res : List SocketAddr × UInt32}
    (hphase : σ.phase = .awaitAnnounce a txId r) (hinbox : σ.inbox = (q, datagram) :: inbox) :
    (∃ σ', σ.step .recv = some σ' ∧ σ'.phase = .returned (.ok res)) ↔
      ∃ t', announceReply txId datagram σ.now σ.tracker = (.ok res, t') := by
  have hstep : σ.step .recv =
      some ({ σ with inbox }.reply (announceReply txId datagram σ.now)
        (fun res => .returned (.ok res)) (nextAttempt σ.now a.args a.rest)) := by
    simp only [step, hinbox, hphase]
  rw [hstep]
  constructor
  · intro h
    obtain ⟨σ', hσ', hret⟩ := h
    obtain rfl := Option.some.inj hσ'
    unfold reply at hret
    cases hm : announceReply txId datagram σ.now σ.tracker with
    | mk out tracker =>
      simp only [hm] at hret
      cases out with
      | ok res' =>
        cases hret
        exact ⟨tracker, rfl⟩
      | error e =>
        cases e with
        | error e => exact (nextAttempt_ne_ok _ _ _ _ hret).elim
        | panicked => cases hret
  · intro h
    obtain ⟨t', h⟩ := h
    refine ⟨_, rfl, ?_⟩
    unfold reply
    simp only [h]

/-- In every run, a response to an announce that is received is returned exactly
when it fits into the buffer. -/
theorem announce_returns_iff (hrun : run step (new now peerPort key) as = some σ)
    (hphase : σ.phase = .awaitAnnounce a txId r)
    (hinbox : σ.inbox = (q, response txId interval leechers seeders peers) :: inbox) :
    (∃ σ', σ.step .recv = some σ' ∧ σ'.phase = .returned (.ok (peers, seeders))) ↔
      20 + 6 * peers.length ≤ σ.tracker.buf.capacity := by
  have hinv : Inv σ := run_invariant (fun _ _ _ => Inv.step) (Inv.new now peerPort key) hrun
  have hempty : σ.tracker.buf.data = [] := hinv.received r (by rw [hphase]; rfl)
  exact (recv_returned_iff hphase hinbox).trans (announceReply_response_iff hempty)

end Response

/-- The arguments of the examples. -/
def someAnnounce : Announce where
  infoHash := Vector.replicate 20 1
  peerId := Vector.replicate 20 2
  downloaded := 0
  left := 100
  uploaded := 0

/-- `connect`, and a first announce up to its response. -/
def firstAnnounce (peers : List SocketAddr) : List Event :=
  [.ask 1 0 true, .answer 0 (u32Bytes actionConnect ++ (u32Bytes 1 ++ u64Bytes 5)), .recv,
    .call someAnnounce, .enter, .ask 2 0 true, .answer 1 (response 2 1800 0 9 peers)]

theorem announce_returns_iff_one :
    let peers : List SocketAddr := [{ ip := 1, port := 6881 }]
    let σ := (run step (new 0 80 7) (firstAnnounce peers)).getD (new 0 80 7)
    σ.tracker.buf.capacity = 496 ∧
      ∃ σ', σ.step .recv = some σ' ∧ σ'.phase = .returned (.ok (peers, 9)) := by
  intro peers σ
  have hcapacity : σ.tracker.buf.capacity = 496 := by decide +kernel
  have hrun : run step (new 0 80 7) (firstAnnounce peers) = some σ := by decide +kernel
  have hphase : σ.phase =
      .awaitAnnounce { args := someAnnounce, deadline := secs 15, rest := [45, 105] } 2 1 := by
    decide +kernel
  have hinbox : σ.inbox = [(1, response 2 1800 0 9 peers)] := by decide +kernel
  refine ⟨hcapacity, (announce_returns_iff hrun hphase hinbox).mpr ?_⟩
  rw [hcapacity]
  decide

/-- 80 peers do not fit into what the connection id has left of the buffer: the
attempt fails. -/
theorem large_response_lost :
    (run step (new 0 80 7) (firstAnnounce (List.replicate 80 { ip := 1, port := 6881 }))).map
        (fun σ => (σ.phase, σ.inbox, σ.tracker.buf.capacity)) =
      some (.awaitAnnounce { args := someAnnounce, deadline := secs 15, rest := [45, 105] } 2 1,
        [(1, response 2 1800 0 9 (List.replicate 80 { ip := 1, port := 6881 }))], 496) ∧
    (run step (new 0 80 7)
        (firstAnnounce (List.replicate 80 { ip := 1, port := 6881 }) ++ [.recv])).map (·.phase) =
      some (.sendAnnounce { args := someAnnounce, deadline := secs 45, rest := [105] }) := by
  decide +kernel

/-! ## Late answers -/

/-- An attempt reads its own answer first, and a success is returned: the next
receive does, and the timer does not come before it. -/
structure Unspoiled (σ : Session) : Prop where
  own : ∀ r, σ.phase.awaited = some r → ∀ d ∈ σ.inbox, d.1 = r
  returned : ∀ a txId r interval leechers seeders peers,
    σ.phase = .awaitAnnounce a txId r →
    (r, response txId interval leechers seeders peers) ∈ σ.inbox →
    (∃ σ', σ.step .recv = some σ' ∧ σ'.phase = .returned (.ok (peers, seeders))) ∧
      σ.step .timeout = none

/-- If the datagram is a success for the announce awaited, there is room for it. -/
def Fits (σ : Session) (datagram : List UInt8) : Prop :=
  ∀ a txId r interval leechers seeders peers,
    σ.phase = .awaitAnnounce a txId r →
    datagram = response txId interval leechers seeders peers →
    20 + 6 * peers.length ≤ σ.tracker.buf.capacity

/-- A request is sent when the socket is empty, and while its answer is awaited no
other one arrives. -/
def Timely (σ : Session) : Event → Prop
  | .ask _ _ sent => σ.phase.Asking → sent = true → σ.inbox = []
  | .answer q datagram =>
    q ∈ σ.outstanding → ∀ r, σ.phase.awaited = some r → q = r ∧ σ.Fits datagram
  | _ => True

/-- What timely steps keep. -/
structure OnTime (σ : Session) : Prop extends Inv σ where
  own : ∀ r, σ.phase.awaited = some r →
    σ.inbox = [] ∨ r ∉ σ.outstanding ∧ ∃ datagram, σ.inbox = [(r, datagram)] ∧ σ.Fits datagram

section Late

variable {σ σ' : Session} {e : Event}

theorem Asks.onTime (h : Asks σ σ') (hσ : OnTime σ) (hempty : σ.inbox = []) : OnTime σ' where
  toInv := h.inv hσ.toInv
  own := fun _ _ => .inl (by rw [h.inbox]; exact hempty)

theorem Idles.onTime (h : Idles σ σ') (hσ : OnTime σ) : OnTime σ' where
  toInv := h.inv hσ.toInv
  own := by
    intro r hr
    rw [h.awaited] at hr
    cases hr

/-- One step keeps the attempts on time, if its answer is to the request awaited and
fits. -/
theorem OnTime.step (hσ : OnTime σ) (hok : Timely σ e) (h : σ.step e = some σ') : OnTime σ' := by
  have hinv := hσ.toInv.step h
  cases moves_of_step h with
  | tick d => exact ⟨hinv, hσ.own⟩
  | @answer q datagram hq =>
    refine ⟨hinv, ?_⟩
    intro r hr
    -- it answers the request awaited, which was not answered before
    obtain ⟨rfl, hfits⟩ := hok hq r hr
    rcases hσ.own q hr with hempty | ⟨hnot, _⟩
    · refine .inr ⟨hσ.nodup.not_mem_erase, datagram, ?_, hfits⟩
      show σ.inbox ++ _ = _
      rw [hempty, List.nil_append]
    · exact absurd hq hnot
  | ask hasking hasks => exact hasks.onTime hσ (hok hasking rfl)
  | idle hidles => exact hidles.onTime hσ

theorem OnTime.unspoiled (hσ : OnTime σ) : Unspoiled σ where
  own := by
    intro r hr d hd
    rcases hσ.own r hr with hempty | ⟨_, datagram, hinbox, _⟩
    · rw [hempty] at hd
      cases hd
    · rw [hinbox] at hd
      rw [List.mem_singleton.mp hd]
  returned := by
    intro a txId r interval leechers seeders peers hphase hmem
    have hr : σ.phase.awaited = some r := by rw [hphase]; rfl
    rcases hσ.own r hr with hempty | ⟨_, datagram, hinbox, hfits⟩
    · rw [hempty] at hmem
      cases hmem
    · rw [hinbox, List.mem_singleton] at hmem
      obtain rfl : _ = datagram := (Prod.mk.inj hmem).2
      constructor
      · exact (recv_returned_iff hphase hinbox).mpr
          ((announceReply_response_iff (hσ.received r hr)).mpr
            (hfits _ _ _ _ _ _ _ hphase rfl))
      · simp only [Session.step, hinbox]

theorem step_ask (txId : UInt32) (grow : Nat) (h : σ.phase.Asking) :
    ∃ σ', σ.step (.ask txId grow true) = some σ' ∧ Asks σ σ' := by
  simp only [step]
  split
  next => exact ⟨_, rfl, ask_sent (askConnId_sent ..) rfl⟩
  next => exact ⟨_, rfl, ask_sent (askAnnounce_sent ..) rfl⟩
  next hget hrequest =>
    cases hphase : σ.phase with
    | getConnId caller deadline rest => exact absurd hphase (hget caller deadline rest)
    | request a => exact absurd hphase (hrequest a)
    | _ =>
      rw [hphase] at h
      exact h.elim

/-- A step that is not timely spoils an attempt. -/
theorem OnTime.timely (hσ : OnTime σ) (hunspoiled : ∀ σ', σ.step e = some σ' → Unspoiled σ') :
    Timely σ e := by
  cases e with
  | ask txId grow sent =>
    intro hasking hsent
    obtain rfl := hsent
    obtain ⟨σ', hstep, hasks⟩ := step_ask txId grow hasking
    -- whatever is in the socket is older than the request
    rw [List.eq_nil_iff_forall_not_mem]
    intro d hd
    have hown := (hunspoiled σ' hstep).own _ hasks.awaited d (by rw [hasks.inbox]; exact hd)
    have := hσ.answered d hd
    omega
  | answer q datagram =>
    intro hq r hr
    let σ' : Session :=
      { σ with outstanding := σ.outstanding.erase q, inbox := σ.inbox ++ [(q, datagram)] }
    have hnext : Unspoiled σ' := hunspoiled σ' (if_pos hq)
    have hmem : (q, datagram) ∈ σ'.inbox := List.mem_append_right _ (List.mem_singleton_self _)
    obtain rfl : q = r := hnext.own r hr (q, datagram) hmem
    refine ⟨rfl, ?_⟩
    intro a txId r interval leechers seeders peers hphase hdatagram
    subst hdatagram
    have hempty : σ.inbox = [] := by
      rcases hσ.own q hr with hempty | ⟨hnot, _⟩
      · exact hempty
      · exact absurd hq hnot
    have hinbox : σ'.inbox = [(q, response txId interval leechers seeders peers)] := by
      show σ.inbox ++ _ = _
      rw [hempty, List.nil_append]
    obtain rfl : r = q := by
      rw [hphase] at hr
      exact Option.some.inj hr
    have hreturned := (hnext.returned a txId r interval leechers seeders peers hphase hmem).1
    exact (announceReply_response_iff (hσ.received r hr)).mp
      ((recv_returned_iff (σ := σ') hphase hinbox).mp hreturned)
  | tick d => trivial
  | call args => trivial
  | enter => trivial
  | recv => trivial
  | recvErr => trivial
  | timeout => trivial
  | attemptTimeout => trivial

/-- In every run, each attempt reads its own answer and returns it if it is a
success, exactly when the answers are on time. -/
theorem unspoiled_iff (now : Nat) (peerPort : UInt16) (key : UInt32) (as : List Event) :
    AllStates step Unspoiled (new now peerPort key) as ↔
      AllSteps step Timely (new now peerPort key) as := by
  have hnew : OnTime (new now peerPort key) := ⟨Inv.new now peerPort key, nofun⟩
  constructor
  · exact allSteps_of_allStates (fun _ _ _ hσ hok h => hσ.step hok h)
      (fun _ _ hσ _ hunspoiled => hσ.timely hunspoiled) hnew
  · intro hok
    exact (allStates_of_invariant (fun _ _ _ hσ hok h => hσ.step hok h) hnew hok).mono
      fun _ hσ => hσ.unspoiled

/-- A first attempt that times out, and the answers to it and to the second
attempt, both in time for that one and in their order. -/
def lateRun : List Event :=
  [.ask 1 0 true, .answer 0 (u32Bytes actionConnect ++ (u32Bytes 1 ++ u64Bytes 5)), .recv,
    .call someAnnounce, .enter, .ask 2 0 true, .tick (secs 15), .timeout, .enter, .ask 3 0 true,
    .answer 1 (response 2 1800 0 9 []), .answer 2 (response 3 1800 0 9 [])]

/-- The second attempt reads the answer to the first one and fails, and the third
the answer to the second one. -/
theorem late_answer_read_first :
    (run step (new 0 80 7) lateRun).map (fun σ => (σ.now, σ.phase, σ.inbox)) =
      some (secs 15,
        .awaitAnnounce { args := someAnnounce, deadline := secs 60, rest := [105] } 3 2,
        [(1, response 2 1800 0 9 []), (2, response 3 1800 0 9 [])]) ∧
    (run step (new 0 80 7) (lateRun ++ [.recv])).map (·.phase) =
      some (.sendAnnounce { args := someAnnounce, deadline := secs 120, rest := [] }) ∧
    (run step (new 0 80 7) (lateRun ++ [.recv, .enter, .ask 4 0 true, .recv])).map (·.phase) =
      some (.returned (.error .noConnId)) := by
  decide +kernel

end Late

end Session

end Udp

end BitTorrent
