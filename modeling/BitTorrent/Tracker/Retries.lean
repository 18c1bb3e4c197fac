import BitTorrent.Tracker.Replies
import BitTorrent.Tracker.Session

/-!
# Replies and retries (`tracker/udp.rs`)

What the replies of `Replies` do to a session. A receive is the only step that
may panic, or move the time of the next announce (`quiet_of_step`), and what it
does is told by the bytes that arrived (`received`).

* `replies_iff` — no reply crashes the client, and what is returned was answered
  to the request awaited, exactly when no error of the tracker is garbled;
* `announce_kept_iff` — a call of `send_announce` that fails has left
  `next_announce` alone, so the next one is not refused for it, exactly when no
  success arrived with its peers cut.

`Carries`, `Garbled` and `Cut` are lifted from datagrams to the phase of the task,
which knows the transaction id that it waits for. `Legible` is then the condition of
the first result on a step, and it is exact: a step that is not legible panics.

The second result is about one call, from the phase that starts it to the one that
ends it, with any events in between: the nested `get_conn_id`, the clock, answers to
older requests.
-/

namespace BitTorrent

namespace Udp

open TrackerM

/-- The attempt of `announce` that the task is in. -/
def Phase.attempt : Phase → Option Attempt
  | .getConnId (.announce a) _ _ | .awaitConnId (.announce a) _ _ _ _ => some a
  | .sendAnnounce a | .request a | .awaitAnnounce a _ _ => some a
  | _ => none

/-- `get_conn_id` or `send_announce` has returned `Ok`. -/
def Phase.Accepted : Phase → Prop
  | .idle | .request _ | .returned (.ok _) => True
  | _ => False

/-- `Carries`, `Garbled` and `Cut`, for the answer that is awaited. -/
def Phase.Carries : Phase → List UInt8 → Prop
  | .awaitConnId _ _ _ txId _, data => Udp.Carries (16 = ·) actionConnect txId data
  | .awaitAnnounce _ txId _, data => Udp.Carries (20 ≤ ·) actionAnnounce txId data
  | _, _ => False

/-- The datagram is an error reply to the request awaited, with a text that is not
UTF-8. -/
def Phase.Garbled : Phase → List UInt8 → Prop
  | .awaitConnId _ _ _ txId _, data => Udp.Garbled (16 = ·) txId data
  | .awaitAnnounce _ txId _, data => Udp.Garbled (20 ≤ ·) txId data
  | _, _ => False

/-- The datagram is a response to the announce awaited, and its peers are not
divisible by six. -/
def Phase.Cut : Phase → UInt32 → List UInt8 → Prop
  | .awaitAnnounce _ txId _, interval, data => Udp.Cut txId interval data
  | _, _, _ => False

/-- The next attempt is another one. -/
theorem attempt_nextAttempt (now : Nat) (a : Attempt) :
    (nextAttempt now a.args a.rest).attempt ≠ some a := by
  intro h
  cases hrest : a.rest with
  | nil =>
    rw [hrest] at h
    cases h
  | cons timeout rest =>
    rw [hrest] at h
    have hlen := congrArg (fun b : Attempt => b.rest.length) (Option.some.inj h)
    simp only [hrest, List.length_cons] at hlen
    omega

theorem not_accepted_nextAttempt (now : Nat) (args : Announce) (rest : List Nat) :
    ¬ (nextAttempt now args rest).Accepted :=
  nextAttempt_of (P := fun phase => ¬ phase.Accepted) id (fun _ => id) now args rest

theorem not_accepted_nextConnId (now : Nat) (caller : Caller) (rest : List Nat) :
    ¬ (nextConnId now caller rest).Accepted :=
  nextConnId_of (P := fun phase => ¬ phase.Accepted) (fun _ _ _ => id) id
    not_accepted_nextAttempt now caller rest

theorem awaited_of_garbled {phase : Phase} {data : List UInt8} (h : phase.Garbled data) :
    ∃ r, phase.awaited = some r := by
  cases phase with
  | awaitConnId caller deadline rest txId r => exact ⟨r, rfl⟩
  | awaitAnnounce a txId r => exact ⟨r, rfl⟩
  | _ => exact h.elim

namespace Session

/-- What `recv_buf` leaves in the buffer. -/
def arrived (σ : Session) (datagram : List UInt8) : List UInt8 :=
  (σ.tracker.buf.recv datagram).data

/-- Where a reply that is refused leads. -/
def failed (σ : Session) : Phase :=
  match σ.phase with
  | .awaitConnId caller _ rest _ _ => nextConnId σ.now caller rest
  | .awaitAnnounce a _ _ => nextAttempt σ.now a.args a.rest
  | phase => phase

theorem failed_ne_panicked {σ : Session} (h : σ.phase ≠ .panicked) : σ.failed ≠ .panicked := by
  unfold failed
  split
  next => exact nextConnId_ne_panicked _ _ _
  next => exact nextAttempt_ne_panicked _ _ _
  next => exact h

theorem not_accepted_failed {σ : Session} {r : Nat} (h : σ.phase.awaited = some r) :
    ¬ σ.failed.Accepted := by
  unfold failed
  split
  next => exact not_accepted_nextConnId _ _ _
  next => exact not_accepted_nextAttempt _ _ _
  next hconnId hannounce =>
    cases hphase : σ.phase with
    | awaitConnId caller deadline rest txId r => exact absurd hphase (hconnId _ _ _ _ _)
    | awaitAnnounce a txId r => exact absurd hphase (hannounce _ _ _)
    | _ =>
      rw [hphase] at h
      cases h

section Quiet

variable {σ σ' : Session} {e : Event} {next : Phase} {γ : Type} {g : UdpTracker → γ}

/-- What the methods of the tracker keep, a step keeps. -/
theorem tracker_ask {m : TrackerM Unit} {await : Nat → Phase} (hm : Keeps g m) :
    g (σ.ask m await next).tracker = g σ.tracker := by
  unfold ask
  cases h : m σ.tracker with
  | mk res tracker => cases res <;> exact hm.of_eq h

theorem tracker_reply {α : Type} {m : TrackerM α} {done : α → Phase} (hm : Keeps g m) :
    g (σ.reply m done next).tracker = g σ.tracker := by
  unfold reply
  cases h : m σ.tracker with
  | mk res tracker => cases res <;> exact hm.of_eq h

/-- What every step does that receives nothing. -/
structure Quiet (σ σ' : Session) : Prop where
  now : σ.now ≤ σ'.now
  announce : σ'.tracker.nextAnnounce = σ.tracker.nextAnnounce
  panicked : σ.phase ≠ .panicked → σ'.phase ≠ .panicked

theorem quiet_ask {m : TrackerM Unit} {await : Nat → Phase}
    (hkeep : Keeps UdpTracker.nextAnnounce m)
    (hm : ∃ t', m σ.tracker = (.ok (), t') ∨ m σ.tracker = (.error (.error .io), t'))
    (hawait : ∀ r, await r ≠ .panicked) (hnext : next ≠ .panicked) :
    Quiet σ (σ.ask m await next) := by
  unfold ask
  obtain ⟨t', hok | herr⟩ := hm
  · rw [hok]
    exact ⟨Nat.le_refl _, hkeep.of_eq hok, fun _ => hawait _⟩
  · rw [herr]
    exact ⟨Nat.le_refl _, hkeep.of_eq herr, fun _ => hnext⟩

/-- A step that receives nothing neither panics nor returns peers, and leaves
`next_announce` alone. -/
theorem quiet_of_step (he : e ≠ .recv) (h : σ.step e = some σ') : Quiet σ σ' := by
  cases stepped_of_step h with
  | tick d => exact ⟨Nat.le_add_right .., rfl, id⟩
  | answer hr => exact ⟨Nat.le_refl _, rfl, id⟩
  | turn hturn => exact ⟨Nat.le_refl _, rfl, fun _ => hturn.spec.2.2⟩
  | @askConnId _ _ _ _ _ sent _ =>
    refine quiet_ask (keeps_askConnId nextAnnounce_buf _ _ _) ?_ (fun _ => nofun)
      (nextConnId_ne_panicked _ _ _)
    cases sent with
    | true => exact (askConnId_sent ..).imp fun t' h => .inl h.1
    | false => exact (askConnId_unsent ..).imp fun t' h => .inr h
  | @askAnnounce _ _ _ sent _ =>
    refine quiet_ask (keeps_askAnnounce nextAnnounce_buf _ _ _ _) ?_ (fun _ => nofun)
      (nextAttempt_ne_panicked _ _ _)
    cases sent with
    | true => exact (askAnnounce_sent ..).imp fun t' h => .inl h.1
    | false => exact (askAnnounce_unsent ..).imp fun t' h => .inr h
  | recvConnId _ _ => exact absurd rfl he
  | recvAnnounce _ _ => exact absurd rfl he

end Quiet

/-! ## What a receive does -/

/-- What a receive does, by the bytes that arrived. -/
inductive Received (σ σ' : Session) (data : List UInt8) : Prop
  | failed (hreadable : ¬ σ.phase.Garbled data) (hphase : σ'.phase = σ.failed)
    (hkeep : (∀ interval, ¬ σ.phase.Cut interval data) →
      σ'.tracker.nextAnnounce = σ.tracker.nextAnnounce)
    (hset : ∀ interval, σ.phase.Cut interval data →
      σ'.tracker.nextAnnounce = σ.now + secs interval.toNat)
  | panicked (hgarbled : σ.phase.Garbled data) (hphase : σ'.phase = .panicked)
  | accepted (hcarries : σ.phase.Carries data) (hreadable : ¬ σ.phase.Garbled data)
    (hphase : σ'.phase.Accepted)

section Received

variable {σ σ' : Session} {q r : Nat} {datagram : List UInt8}

/-- A receive takes the first datagram, while an answer is awaited. -/
theorem recv_eq_some (h : σ.step .recv = some σ') :
    ∃ q datagram inbox r, σ.inbox = (q, datagram) :: inbox ∧ σ.phase.awaited = some r := by
  cases stepped_of_step h with
  | turn hturn => exact absurd rfl hturn.spec.1
  | recvConnId hinbox hphase => exact ⟨_, _, _, _, hinbox, by rw [hphase]; rfl⟩
  | recvAnnounce hinbox hphase => exact ⟨_, _, _, _, hinbox, by rw [hphase]; rfl⟩

theorem received_connId (inbox : List (Nat × List UInt8)) {caller : Caller} {deadline : Nat}
    {rest : List Nat} {txId : UInt32}
    (hphase : σ.phase = .awaitConnId caller deadline rest txId r) :
    Received σ ({ σ with inbox }.reply (connIdReply txId datagram σ.now)
      (fun () => afterConnId caller) (nextConnId σ.now caller rest)) (σ.arrived datagram) := by
  have hfailed : σ.failed = nextConnId σ.now caller rest := by
    unfold failed
    rw [hphase]
  have hout := connIdReply_opens txId datagram σ.now σ.tracker
  unfold reply
  dsimp only
  generalize connIdReply txId datagram σ.now σ.tracker = out at hout ⊢
  cases hout with
  | refused _ hreadable hkeep =>
    refine .failed ?_ hfailed.symm (fun _ => hkeep) ?_
    · rw [hphase]
      exact hreadable
    · rw [hphase]
      exact fun _ hcut => hcut.elim
  | garbled hgarbled _ => exact .panicked (by rw [hphase]; exact hgarbled) rfl
  | @carries t' hcarries hdata _ =>
    -- eight bytes are left for the connection id
    have hlen := hcarries.1
    rw [hdata] at hlen
    simp only [List.length_append, length_u32Bytes] at hlen
    obtain ⟨t₁, hrest⟩ := @connIdRest_ok σ.now t' (by omega)
    rw [hrest]
    refine .accepted ?_ ?_ ?_
    · rw [hphase]
      exact hcarries
    · rw [hphase]
      exact hcarries.not_garbled (by decide)
    · cases caller with
      | connect => trivial
      | announce a => trivial

theorem received_announce (inbox : List (Nat × List UInt8)) {a : Attempt} {txId : UInt32}
    (hphase : σ.phase = .awaitAnnounce a txId r) :
    Received σ ({ σ with inbox }.reply (announceReply txId datagram σ.now)
      (fun res => .returned (.ok res)) (nextAttempt σ.now a.args a.rest)) (σ.arrived datagram) := by
  have hfailed : σ.failed = nextAttempt σ.now a.args a.rest := by
    unfold failed
    rw [hphase]
  have hout := announceReply_outcome txId datagram σ.now σ.tracker
  unfold reply
  dsimp only
  generalize announceReply txId datagram σ.now σ.tracker = out at hout ⊢
  cases hout with
  | refused hcut hreadable hkeep =>
    refine .failed ?_ hfailed.symm (fun _ => hkeep) ?_
    · rw [hphase]
      exact hreadable
    · rw [hphase]
      exact fun interval h => absurd h (hcut interval)
  | garbled hgarbled => exact .panicked (by rw [hphase]; exact hgarbled) rfl
  | @cut interval t' hcut hset =>
    refine .failed ?_ hfailed.symm ?_ ?_
    · rw [hphase]
      exact hcut.carries.not_garbled (by decide)
    · rw [hphase]
      exact fun hnone => absurd hcut (hnone interval)
    · rw [hphase]
      intro interval' hcut'
      rw [← Udp.Cut.inj hcut hcut']
      exact hset
  | accepted hcarries =>
    refine .accepted ?_ ?_ trivial
    · rw [hphase]
      exact hcarries
    · rw [hphase]
      exact hcarries.not_garbled (by decide)

/-- While an answer is awaited, a datagram that waits can be received. -/
theorem received {inbox : List (Nat × List UInt8)} (hinbox : σ.inbox = (q, datagram) :: inbox)
    (hawaited : σ.phase.awaited = some r) :
    ∃ σ', σ.step .recv = some σ' ∧ Received σ σ' (σ.arrived datagram) := by
  cases hphase : σ.phase with
  | awaitConnId caller deadline rest txId r =>
    refine ⟨_, ?_, received_connId inbox hphase⟩
    simp only [step, hinbox, hphase]
  | awaitAnnounce a txId r =>
    refine ⟨_, ?_, received_announce inbox hphase⟩
    simp only [step, hinbox, hphase]
  | _ =>
    rw [hphase] at hawaited
    cases hawaited

end Received

/-! ## No reply crashes the client -/

/-- What is received is no error of the tracker with a text that is no UTF-8. -/
def Legible (σ : Session) : Event → Prop
  | .recv => ∀ q datagram inbox, σ.inbox = (q, datagram) :: inbox →
      ¬ σ.phase.Garbled (σ.arrived datagram)
  | _ => True

/-- A reply can be received, and it is accepted only as the answer to the request. -/
def Answered (σ : Session) : Event → Prop
  | .recv => ∀ q datagram inbox r, σ.inbox = (q, datagram) :: inbox → σ.phase.awaited = some r →
      ∃ σ', σ.step .recv = some σ' ∧ (σ'.phase.Accepted → σ.phase.Carries (σ.arrived datagram))
  | _ => True

section Replies

variable {σ σ' : Session} {e : Event}

/-- What any step can do to the task. -/
theorem answered (σ : Session) (e : Event) : Answered σ e := by
  cases e with
  | recv =>
    intro q datagram inbox r hinbox hawaited
    obtain ⟨σ', hstep, hreceived⟩ := received hinbox hawaited
    refine ⟨σ', hstep, ?_⟩
    intro haccepted
    cases hreceived with
    | accepted hcarries _ _ => exact hcarries
    | panicked _ hphase =>
      rw [hphase] at haccepted
      exact haccepted.elim
    | failed _ hphase _ _ =>
      rw [hphase] at haccepted
      exact absurd haccepted (not_accepted_failed hawaited)
  | _ => trivial

/-- A legible datagram does not make the task panic. -/
theorem ne_panicked_of_step (hσ : σ.phase ≠ .panicked) (hlegible : Legible σ e)
    (h : σ.step e = some σ') : σ'.phase ≠ .panicked := by
  by_cases he : e = .recv
  · subst he
    obtain ⟨q, datagram, inbox, r, hinbox, hawaited⟩ := recv_eq_some h
    obtain ⟨σ₁, hstep, hreceived⟩ := received hinbox hawaited
    obtain rfl : σ₁ = σ' := Option.some.inj (hstep.symm.trans h)
    cases hreceived with
    | failed _ hphase _ _ =>
      rw [hphase]
      exact failed_ne_panicked hσ
    | panicked hgarbled _ => exact absurd hgarbled (hlegible q datagram inbox hinbox)
    | accepted _ _ hphase =>
      intro hpanicked
      rw [hpanicked] at hphase
      exact hphase
  · exact (quiet_of_step he h).panicked hσ

/-- Whatever does not make the task panic is legible. -/
theorem legible_of_ne_panicked (h : ∀ σ', σ.step e = some σ' → σ'.phase ≠ .panicked) :
    Legible σ e := by
  cases e with
  | recv =>
    intro q datagram inbox hinbox hgarbled
    obtain ⟨r, hawaited⟩ := awaited_of_garbled hgarbled
    obtain ⟨σ', hstep, hreceived⟩ := received hinbox hawaited
    cases hreceived with
    | failed hreadable _ _ _ => exact hreadable hgarbled
    | panicked _ hphase => exact h σ' hstep hphase
    | accepted _ hreadable _ => exact hreadable hgarbled
  | _ => trivial

/-- In every run, no reply crashes the client and what is accepted answers the
request awaited, exactly when no garbled error of the tracker is received. -/
theorem replies_iff (now : Nat) (peerPort : UInt16) (key : UInt32) (as : List Event) :
    (AllStates step (fun σ => σ.phase ≠ .panicked) (new now peerPort key) as ∧
      AllSteps step Answered (new now peerPort key) as) ↔
      AllSteps step Legible (new now peerPort key) as := by
  have hnew : (new now peerPort key).phase ≠ .panicked := nofun
  constructor
  · intro h
    exact allSteps_of_allStates (P := fun _ => True) (fun _ _ _ _ _ _ => trivial)
      (fun _ _ _ _ hnext => legible_of_ne_panicked hnext) trivial h.1
  · intro hok
    exact ⟨allStates_of_invariant (fun _ _ _ => ne_panicked_of_step) hnew hok,
      hok.mono fun σ e _ => answered σ e⟩

/-- An error of the tracker that holds a byte that is in no UTF-8. -/
theorem garbled_error_panics :
    (run step (new 0 80 7) [.ask 1 0 true,
      .answer 0 (u32Bytes actionError ++ (u32Bytes 1 ++ List.replicate 8 255)), .recv]).map
        (·.phase) = some .panicked := by
  decide +kernel

end Replies

/-! ## A failed announce and the next attempt -/

/-- A success whose peers are cut off does not arrive, unless it would leave the
time of the next announce as it is. -/
def Whole (σ : Session) : Event → Prop
  | .recv => ∀ q datagram inbox interval, σ.inbox = (q, datagram) :: inbox →
      σ.phase.Cut interval (σ.arrived datagram) →
      σ.now + secs interval.toNat = σ.tracker.nextAnnounce
  | _ => True

/-- A call of `send_announce` that fails, from `σ` to where the loop of `announce`
goes on. -/
structure FailedCall (a : Attempt) (σ : Session) (as : List Event) (σ' : Session) : Prop where
  called : σ.phase = .sendAnnounce a
  during : AllSteps step (fun σ _ => σ.phase.attempt = some a) σ as
  ran : run step σ as = some σ'
  failed : σ'.phase = nextAttempt σ'.now a.args a.rest

/-- `connect`, and a call of `announce`. -/
def called : List Event :=
  [.ask 1 0 true, .answer 0 (u32Bytes actionConnect ++ (u32Bytes 1 ++ u64Bytes 5)), .recv,
    .call someAnnounce]

/-- The first round of `announce`, called at the start. -/
def firstAttempt : Attempt := { args := someAnnounce, deadline := secs 15, rest := [45, 105] }

section Retry

variable {σ σ' : Session} {a : Attempt} {as : List Event}

/-- The receive with which a call fails. -/
theorem kept_iff_of_recv (h : σ.step .recv = some σ')
    (hfailed : σ'.phase = nextAttempt σ'.now a.args a.rest) :
    σ'.tracker.nextAnnounce = σ.tracker.nextAnnounce ↔ Whole σ .recv := by
  obtain ⟨q, datagram, inbox, r, hinbox, hawaited⟩ := recv_eq_some h
  obtain ⟨σ₁, hstep, hreceived⟩ := received hinbox hawaited
  obtain rfl : σ₁ = σ' := Option.some.inj (hstep.symm.trans h)
  cases hreceived with
  | panicked _ hphase =>
    rw [hphase] at hfailed
    exact absurd hfailed.symm (nextAttempt_ne_panicked _ _ _)
  | accepted _ _ hphase =>
    rw [hfailed] at hphase
    exact absurd hphase (not_accepted_nextAttempt _ _ _)
  | failed _ _ hkeep hset =>
    constructor
    · intro hkept q' datagram' inbox' interval hinbox' hcut
      rw [hinbox] at hinbox'
      obtain rfl : datagram = datagram' := (Prod.mk.inj (List.cons.inj hinbox').1).2
      rw [← hset interval hcut, hkept]
    · intro hwhole
      by_cases hcut : ∃ interval, σ.phase.Cut interval (σ.arrived datagram)
      · obtain ⟨interval, hcut⟩ := hcut
        rw [hset interval hcut, hwhole q datagram inbox interval hinbox hcut]
      · exact hkeep (not_exists.mp hcut)

theorem whole_of_ne_recv {e : Event} (he : e ≠ .recv) : Whole σ e := by
  cases e with
  | recv => exact absurd rfl he
  | _ => trivial

/-- Whatever the answer to an announce is, the attempt is over. -/
theorem attempt_reply (m : TrackerM (List SocketAddr × UInt32)) (now : Nat) (a : Attempt)
    (σ : Session) :
    (σ.reply m (fun res => .returned (.ok res)) (nextAttempt now a.args a.rest)).phase.attempt ≠
      some a := by
  unfold reply
  cases m σ.tracker with
  | mk res tracker =>
    cases res with
    | ok res => nofun
    | error e =>
      cases e with
      | error e => exact attempt_nextAttempt now a
      | panicked => nofun

/-- A receive in the middle of a call is that of a connection id. -/
theorem kept_of_recv (hin : σ.phase.attempt = some a) (h : σ.step .recv = some σ')
    (hin' : σ'.phase.attempt = some a) :
    σ'.tracker.nextAnnounce = σ.tracker.nextAnnounce ∧ Whole σ .recv := by
  cases stepped_of_step h with
  | turn hturn => exact absurd rfl hturn.spec.1
  | recvConnId _ hphase =>
    refine ⟨tracker_reply (connIdReply_keeps nextAnnounce_buf (fun _ _ _ => rfl) _ _ _), ?_⟩
    intro q datagram inbox interval _ hcut
    rw [hphase] at hcut
    exact hcut.elim
  | recvAnnounce _ hphase =>
    rw [hphase] at hin
    obtain rfl := Option.some.inj hin
    exact absurd hin' (attempt_reply _ _ _ _)

/-- Inside an attempt a step leaves `next_announce` alone. -/
theorem kept_of_step {e : Event} (hin : σ.phase.attempt = some a) (h : σ.step e = some σ')
    (hin' : σ'.phase.attempt = some a) :
    σ'.tracker.nextAnnounce = σ.tracker.nextAnnounce ∧ Whole σ e := by
  by_cases he : e = .recv
  · subst he
    exact kept_of_recv hin h hin'
  · exact ⟨(quiet_of_step he h).announce, whole_of_ne_recv he⟩

/-- An attempt that fails leaves `next_announce` alone unless its response was
cut. -/
theorem kept_iff_of_step {e : Event} (h : σ.step e = some σ')
    (hfailed : σ'.phase = nextAttempt σ'.now a.args a.rest) :
    σ'.tracker.nextAnnounce = σ.tracker.nextAnnounce ↔ Whole σ e := by
  by_cases he : e = .recv
  · subst he
    exact kept_iff_of_recv h hfailed
  · exact iff_of_true (quiet_of_step he h).announce (whole_of_ne_recv he)

theorem allSteps_cons {ok : Session → Event → Prop} {e : Event} {σ₁ : Session}
    (h : σ.step e = some σ₁) :
    AllSteps step ok σ (e :: as) ↔ ok σ e ∧ AllSteps step ok σ₁ as := by
  constructor
  · intro hall
    exact ⟨hall.1, hall.2 σ₁ h⟩
  · intro hall
    refine ⟨hall.1, ?_⟩
    intro σ₂ h₂
    rw [← Option.some.inj (h.symm.trans h₂)]
    exact hall.2

/-- From anywhere in a call. Only its last step can be the one that matters. -/
theorem kept_iff :
    ∀ {as : List Event} {σ : Session},
      AllSteps step (fun σ _ => σ.phase.attempt = some a) σ as → run step σ as = some σ' →
      σ'.phase = nextAttempt σ'.now a.args a.rest →
      (σ'.tracker.nextAnnounce = σ.tracker.nextAnnounce ↔ AllSteps step Whole σ as) := by
  intro as
  induction as with
  | nil =>
    intro σ _ hran _
    obtain rfl := Option.some.inj hran
    exact iff_of_true rfl trivial
  | cons e as ih =>
    intro σ hduring hran hfailed
    obtain ⟨σ₁, hstep, hrest⟩ := run_cons hran
    have hduring₁ := hduring.2 σ₁ hstep
    rw [allSteps_cons hstep]
    cases as with
    | nil =>
      obtain rfl : σ₁ = σ' := Option.some.inj hrest
      exact (kept_iff_of_step hstep hfailed).trans (and_iff_left trivial).symm
    | cons e' as =>
      obtain ⟨hkept, hwhole⟩ := kept_of_step hduring.1 hstep hduring₁.1
      rw [← hkept, ih hduring₁ hrest hfailed, and_iff_right hwhole]

theorem now_le_of_step {e : Event} (h : σ.step e = some σ') : σ.now ≤ σ'.now := by
  by_cases he : e = .recv
  · subst he
    cases stepped_of_step h with
    | turn hturn => exact absurd rfl hturn.spec.1
    | recvConnId _ _ =>
      refine Nat.le_of_eq (Eq.symm ?_)
      exact now_reply
    | recvAnnounce _ _ =>
      refine Nat.le_of_eq (Eq.symm ?_)
      exact now_reply
  · exact (quiet_of_step he h).now

/-- A call of `send_announce` that fails leaves the time of the next announce as it
was, so that the attempt after it is not refused for being too early, exactly when
no success arrives in it whose peers are cut off. -/
theorem announce_kept_iff (h : FailedCall a σ as σ') :
    (σ'.tracker.nextAnnounce = σ.tracker.nextAnnounce ∧
      (σ.tracker.nextAnnounce ≤ σ.now → ¬ σ'.now < σ'.tracker.nextAnnounce)) ↔
      AllSteps step Whole σ as := by
  rw [← kept_iff h.during h.ran h.failed]
  refine and_iff_left_of_imp ?_
  intro hkept hready
  have hnow : σ.now ≤ σ'.now :=
    run_invariant (fun _ _ _ hle hstep => Nat.le_trans hle (now_le_of_step hstep))
      (Nat.le_refl _) h.ran
  omega

/-- A call whose reply has another transaction id, after `connect`. -/
theorem announce_kept_iff_other :
    let σ := (run step (new 0 80 7) called).getD (new 0 80 7)
    let as : List Event := [.enter, .ask 2 0 true, .answer 1 (response 3 1800 0 9 []), .recv]
    let σ' := (run step σ as).getD σ
    FailedCall firstAttempt σ as σ' ∧ AllSteps step Whole σ as := by
  intro σ as σ'
  have hcall : FailedCall firstAttempt σ as σ' :=
    { called := by decide +kernel
      during := by decide +kernel
      ran := by decide +kernel
      failed := by decide +kernel }
  exact ⟨hcall, (announce_kept_iff hcall).mp (by decide +kernel)⟩

/-- One byte too many behind a success, and the tracker is not asked again: both
attempts that are left are refused, and `announce` fails. -/
theorem cut_blocks_retries :
    let σ := (run step (new 0 80 7) called).getD (new 0 80 7)
    let as : List Event :=
      [.enter, .ask 2 0 true, .answer 1 (response 2 1800 0 9 [] ++ [10]), .recv]
    let σ' := (run step σ as).getD σ
    FailedCall firstAttempt σ as σ' ∧ σ.tracker.nextAnnounce = 0 ∧
      σ'.tracker.nextAnnounce = secs 1800 ∧
      (run step σ' [.enter, .enter]).map (·.phase) = some (.returned (.error .noConnId)) := by
  intro σ as σ'
  refine ⟨?_, by decide +kernel, by decide +kernel, by decide +kernel⟩
  exact
    { called := by decide +kernel
      during := by decide +kernel
      ran := by decide +kernel
      failed := by decide +kernel }

end Retry

end Session

end Udp

end BitTorrent
