import BitTorrent.Tracker.Peers
import BitTorrent.Tracker.Quota

/-!
# What a tracker is sent (`tracker/udp.rs`)

The requests, byte by byte (`connectRequest`, `announceRequest`), and what holds
of them in every run. A connection id is *issued* by a reply that accepts a
connect request which is awaited (`issuedId`). The history of a session is the
ids issued so far, with the time of each.

An announce carries the id issued last, and is not sent before `next_announce`.
When `send_announce` goes on to it, that id is at most 60 seconds old
(`announces_proper`).

A response is read to its last byte: what `announce` returns is what the datagram
says, as far as there was room for it (`announce_truthful`).

A packet is what is in the buffer when the socket is given it (`packet`). What the
methods do not change is told by `Keeps`: no reply sets the port or the key, only an
accepted connection id sets `conn_id` and its time, and only a response to an
announce sets `next_announce`.

The port in the announce is the port of the tracker. This is what the source sends,
and the statements say so.
-/

namespace BitTorrent

namespace Udp

open TrackerM

/-! ## The requests -/

/-- The 16 bytes of a connect request. -/
def connectRequest (txId : UInt32) : List UInt8 :=
  u64Bytes protocolId ++ (u32Bytes actionConnect ++ u32Bytes txId)

/-- The 98 bytes of an announce request, in the order in which `send_announce` puts
them. -/
def announceRequest (connId : UInt64) (txId : UInt32) (args : Announce) (key : UInt32)
    (port : UInt16) : List UInt8 :=
  u64Bytes connId ++ (u32Bytes actionAnnounce ++ (u32Bytes txId ++ (args.infoHash.toList ++
    (args.peerId.toList ++ (u64Bytes args.downloaded ++ (u64Bytes args.left ++
      (u64Bytes args.uploaded ++ (u32Bytes 0 ++ (u32Bytes 0 ++ (u32Bytes key ++
        (u32Bytes 0xFFFFFFFF ++ u16Bytes port)))))))))))

section Write

variable (txId : UInt32) (grow : Nat) (t : UdpTracker) (args : Announce)

/-- A request that cannot be sent stays in the buffer. -/
theorem askConnId_data :
    (askConnId txId grow false t).2.buf.data = connectRequest txId := by
  unfold askConnId
  rw [clear_bind, put_bind, put_bind, put_bind, unsent_bind]
  simp only [UdpTracker.onBuf_buf, BytesMut.put_data, BytesMut.clear_data, List.nil_append,
    List.append_assoc, connectRequest]

/-- What `send_announce` puts into the buffer is the announce request. -/
theorem askAnnounce_data :
    (askAnnounce args txId grow false t).2.buf.data =
      announceRequest t.connId txId args t.key t.peerPort := by
  unfold askAnnounce
  simp only [clear_bind, put_bind, field_bind, unsent_bind]
  simp only [UdpTracker.onBuf, BytesMut.put_data, BytesMut.clear_data, List.nil_append,
    List.append_assoc, announceRequest]

end Write

/-! ## The connection id -/

/-- The id that a reply of the tracker gives, as the answer to `txId`. -/
def issuedId (txId : UInt32) (data : List UInt8) : Option UInt64 :=
  if 16 = data.length ∧ data.take 8 = u32Bytes actionConnect ++ u32Bytes txId then
    some (u64OfBytes (data.drop 8))
  else none

/-- The fields that are set once, by `connect`. -/
def UdpTracker.ident (t : UdpTracker) : UInt16 × UInt32 := (t.peerPort, t.key)

/-- The id in use, and when it was received. -/
def UdpTracker.issued (t : UdpTracker) : UInt64 × Nat := (t.connId, t.connIdTs)

section ConnId

variable {α β γ : Type} {size : Nat → Prop} {expected txId : UInt32} {now : Nat}
  {t t' : UdpTracker} {data datagram : List UInt8}

theorem bind_assoc (m : TrackerM α) (f : α → TrackerM β) (h : β → TrackerM γ) :
    m >>= f >>= h = m >>= fun a => f a >>= h := by
  funext t
  cases hm : m t with
  | mk res t₁ =>
    cases res with
    | ok a =>
      rw [bind_of_ok hm]
      cases hf : f a t₁ with
      | mk res t₂ =>
        have hmf : (m >>= f) t = (res, t₂) := by rw [bind_of_ok hm, hf]
        cases res with
        | ok b => rw [bind_of_ok hmf, bind_of_ok hf]
        | error e => rw [bind_of_error hmf, bind_of_error hf]
    | error e =>
      have hmf : (m >>= f) t = (.error e, t₁) := bind_of_error hm
      rw [bind_of_error hm, bind_of_error hmf]

/-- The first eight bytes are looked at before the rest is. -/
theorem opened_then [DecidablePred size] (k : TrackerM α) :
    opened size expected txId datagram k =
      opened size expected txId datagram (pure ()) >>= fun _ => k := by
  unfold opened
  simp only [bind_assoc]
  rfl

/-- What the common part of both replies does with a datagram: it goes on with the
rest of it, or fails. -/
theorem opened_outcome [DecidablePred size] (hlen : ∀ n, size n → 8 ≤ n)
    (hne : expected ≠ actionError) (hdata : (t.buf.recv datagram).data = data) :
    (∃ t₁, opened size expected txId datagram (pure ()) t = (.ok (), t₁) ∧ size data.length ∧
      data = u32Bytes expected ++ (u32Bytes txId ++ t₁.buf.data)) ∨
    (∃ e t₁, opened size expected txId datagram (pure ()) t = (.error e, t₁) ∧
      ¬ Carries size expected txId data) := by
  have hopens := @opens Unit size expected txId (pure ()) t datagram _ hlen hne
  rw [hdata] at hopens
  generalize opened size expected txId datagram (pure ()) t = out at hopens ⊢
  cases hopens with
  | refused hcarries _ _ => exact .inr ⟨_, _, rfl, hcarries⟩
  | garbled hgarbled _ => exact .inr ⟨_, _, rfl, fun h => h.not_garbled hne hgarbled⟩
  | carries hcarries hdata _ => exact .inl ⟨_, rfl, hcarries.1, hdata⟩

theorem issuedId_of_carries {tail : List UInt8} (hsize : 16 = data.length)
    (hdata : data = u32Bytes actionConnect ++ (u32Bytes txId ++ tail)) :
    issuedId txId data = some (u64OfBytes tail) := by
  have hhead : (u32Bytes actionConnect ++ u32Bytes txId).length = 8 := rfl
  rw [← List.append_assoc] at hdata
  have htake : data.take 8 = u32Bytes actionConnect ++ u32Bytes txId := by
    rw [hdata, List.take_left' hhead]
  have hdrop : data.drop 8 = tail := by rw [hdata, List.drop_left' hhead]
  unfold issuedId
  rw [if_pos ⟨hsize, htake⟩, hdrop]

theorem issuedId_of_not_carries (h : ¬ Carries (16 = ·) actionConnect txId data) :
    issuedId txId data = none := by
  unfold issuedId
  refine if_neg fun hissued => h ⟨hissued.1, data.drop 8, ?_⟩
  rw [← List.append_assoc, ← hissued.2, List.take_append_drop]

/-- The id of the reply is taken over, or the one in use is kept. -/
theorem connIdReply_issues (hdata : (t.buf.recv datagram).data = data) :
    (∃ t', connIdReply txId datagram now t = (.ok (), t') ∧
      issuedId txId data = some t'.connId ∧ t'.connIdTs = now) ∨
    (∃ e t', connIdReply txId datagram now t = (.error e, t') ∧ issuedId txId data = none ∧
      t'.issued = t.issued) := by
  rw [connIdReply_eq, opened_then]
  have hkeep := @keeps_opened Unit _ UdpTracker.issued (fun _ _ => rfl) (16 = ·) _ actionConnect
    txId datagram (pure ()) (keeps_pure ())
  rcases @opened_outcome (16 = ·) actionConnect txId t data datagram _ (fun n hn => by omega)
    (by decide) hdata with ⟨t₁, hopened, hsize, hcarries⟩ | ⟨e, t₁, hopened, hcarries⟩
  · refine .inl ?_
    have hlen : t₁.buf.data.length = 8 := by
      rw [hcarries] at hsize
      simp only [List.length_append, length_u32Bytes] at hsize
      omega
    obtain ⟨buf, hget, -⟩ := BytesMut.get_of_eq (List.append_nil t₁.buf.data).symm hlen
    have hread : TrackerM.read BytesMut.getU64 t₁ =
        (.ok (u64OfBytes t₁.buf.data), { t₁ with buf }) := by
      refine read_of_eq ?_
      unfold BytesMut.getU64
      rw [hget]
      rfl
    rw [bind_of_ok hopened, issuedId_of_carries hsize hcarries]
    unfold connIdRest
    rw [bind_of_ok hread]
    exact ⟨_, rfl, rfl, rfl⟩
  · refine .inr ⟨e, t₁, bind_of_error hopened, issuedId_of_not_carries hcarries, ?_⟩
    exact hkeep.of_eq hopened

/-- Only `next_announce` is set by a reply to an announce. -/
theorem announceReply_keeps {g : UdpTracker → γ} (hg : ∀ t buf, g { t with buf } = g t)
    (hset : ∀ t nextAnnounce, g { t with nextAnnounce } = g t) (txId : UInt32)
    (datagram : List UInt8) (now : Nat) : Keeps g (announceReply txId datagram now) := by
  rw [announceReply_eq]
  refine keeps_opened hg _ _ _ _ ?_
  unfold announceRest
  refine (keeps_read hg _).bind fun interval => Keeps.bind (fun t => hset t _) fun _ => ?_
  refine (keeps_read hg _).bind fun leechers => (keeps_read hg _).bind fun seeders => ?_
  refine (keeps_field _).bind fun n => (keeps_ensure _ _).bind fun _ => ?_
  refine (keeps_field _).bind fun n => (keeps_readPeers hg _).bind fun peers => ?_
  exact keeps_pure _

end ConnId

/-! ## Runs -/

/-- No connection id is there yet, and none will be asked for but by `connect`. -/
def Phase.Unconnected : Phase → Prop
  | .getConnId .connect _ _ | .awaitConnId .connect _ _ _ _ | .refused | .panicked => True
  | _ => False

/-- `send_announce` has passed its check of `next_announce`. -/
def Phase.Due : Phase → Prop
  | .getConnId (.announce _) _ _ | .awaitConnId (.announce _) _ _ _ _ => True
  | .request _ | .awaitAnnounce _ _ _ => True
  | _ => False

theorem unconnected_nextConnId (now : Nat) (rest : List Nat) :
    (nextConnId now .connect rest).Unconnected := by
  cases rest <;> trivial

theorem not_due_nextAttempt (now : Nat) (args : Announce) (rest : List Nat) :
    ¬ (nextAttempt now args rest).Due :=
  nextAttempt_of (P := fun phase => ¬ phase.Due) id (fun _ => id) now args rest

theorem not_due_nextConnId (now : Nat) (rest : List Nat) :
    ¬ (nextConnId now .connect rest).Due := by
  cases rest <;> exact id

namespace Session

/-- What a request gives the socket: the buffer, where it is left by a request that
cannot be sent. -/
def packet (σ : Session) : Event → Option (List UInt8)
  | .ask txId grow true =>
    match σ.phase with
    | .getConnId _ _ _ => some (askConnId txId grow false σ.tracker).2.buf.data
    | .request a => some (askAnnounce a.args txId grow false σ.tracker).2.buf.data
    | _ => none
  | _ => none

/-- The connection id that is received. -/
def issue (σ : Session) : Event → Option (UInt64 × Nat)
  | .recv =>
    match σ.inbox, σ.phase with
    | (_, datagram) :: _, .awaitConnId _ _ _ txId _ =>
      (issuedId txId (σ.arrived datagram)).map fun connId => (connId, σ.now)
    | _, _ => none
  | _ => none

/-- The id in use is the one issued last. -/
def Known (p : Session × List (UInt64 × Nat)) : Prop :=
  p.1.phase.Unconnected ∨ p.2.head? = some p.1.tracker.issued

section Steps

variable {σ σ' : Session} {e : Event}

/-- The port and the key of a tracker do not change. -/
theorem ident_step (h : σ.step e = some σ') : σ'.tracker.ident = σ.tracker.ident := by
  cases stepped_of_step h with
  | tick d => rfl
  | answer => rfl
  | turn _ => rfl
  | askConnId _ => exact tracker_ask (keeps_askConnId (fun _ _ => rfl) _ _ _)
  | askAnnounce _ => exact tracker_ask (keeps_askAnnounce (fun _ _ => rfl) _ _ _ _)
  | recvConnId _ _ =>
    exact tracker_reply (connIdReply_keeps (fun _ _ => rfl) (fun _ _ _ => rfl) _ _ _)
  | recvAnnounce _ _ =>
    exact tracker_reply (announceReply_keeps (fun _ _ => rfl) (fun _ _ => rfl) _ _ _)

end Steps

/-! ## The time of an announce -/

/-- When `send_announce` has passed its check, `next_announce` is over. -/
def OnSchedule (σ : Session) : Prop := σ.phase.Due → σ.tracker.nextAnnounce ≤ σ.now

section OnSchedule

variable {σ σ' : Session} {e : Event}

theorem OnSchedule.of_due (hσ : OnSchedule σ) (hdue : σ.phase.Due) (hnow : σ'.now = σ.now)
    (hkeep : σ'.tracker.nextAnnounce = σ.tracker.nextAnnounce) : OnSchedule σ' := by
  intro _
  rw [hkeep, hnow]
  exact hσ hdue

theorem onSchedule_enter (a : Attempt) : OnSchedule { σ with phase := σ.enter a } := by
  intro hdue
  change (σ.enter a).Due at hdue
  unfold enter at hdue
  split at hdue
  next => exact (not_due_nextAttempt _ _ _ hdue).elim
  next hle => exact Nat.le_of_not_lt hle

/-- One step keeps the announces on schedule. -/
theorem onSchedule_step (hσ : OnSchedule σ) (h : σ.step e = some σ') : OnSchedule σ' := by
  cases stepped_of_step h with
  | tick d => exact fun hdue => Nat.le_trans (hσ hdue) (Nat.le_add_right _ _)
  | answer => exact hσ
  | turn hturn =>
    cases hturn with
    | call _ => exact fun hdue => (not_due_nextAttempt σ.now _ retryTimeout hdue).elim
    | enter _ => exact onSchedule_enter _
    | @connIdLost _ caller _ _ _ _ _ hphase =>
      cases caller with
      | connect => exact fun hdue => (not_due_nextConnId _ _ hdue).elim
      | announce a => exact hσ.of_due (by rw [hphase]; trivial) rfl rfl
    | announceLost _ _ => exact fun hdue => (not_due_nextAttempt _ _ _ hdue).elim
    | attemptLost _ => exact fun hdue => (not_due_nextAttempt _ _ _ hdue).elim
  | @askConnId caller _ _ _ _ _ hphase =>
    cases caller with
    | connect =>
      intro hdue
      exact (phase_ask (P := fun phase => ¬ phase.Due) (fun _ => id) (not_due_nextConnId _ _) id
        hdue).elim
    | announce a =>
      exact hσ.of_due (by rw [hphase]; trivial) now_ask
        (tracker_ask (keeps_askConnId nextAnnounce_buf _ _ _))
  | askAnnounce hphase =>
    exact hσ.of_due (by rw [hphase]; trivial) now_ask
      (tracker_ask (keeps_askAnnounce nextAnnounce_buf _ _ _ _))
  | @recvConnId _ _ _ _ _ caller _ _ _ hphase =>
    cases caller with
    | connect =>
      intro hdue
      exact (phase_reply (P := fun phase => ¬ phase.Due) (fun _ => id) (not_due_nextConnId _ _) id
        hdue).elim
    | announce a =>
      exact hσ.of_due (by rw [hphase]; trivial) now_reply
        (tracker_reply (connIdReply_keeps nextAnnounce_buf (fun _ _ _ => rfl) _ _ _))
  | recvAnnounce _ _ =>
    intro hdue
    exact (phase_reply (P := fun phase => ¬ phase.Due) (fun _ => id) (not_due_nextAttempt _ _ _) id
      hdue).elim

end OnSchedule

/-! ## The id of an announce -/

section Known

variable {p p' : Session × List (UInt64 × Nat)} {σ σ' : Session} {e : Event}
  {issued : List (UInt64 × Nat)}

theorem Known.of_kept (hp : Known (σ, issued)) (hphase : ¬ σ.phase.Unconnected)
    (hkeep : σ'.tracker.issued = σ.tracker.issued) : Known (σ', issued) := by
  refine .inr ?_
  rw [hkeep]
  exact hp.resolve_left hphase

/-- Nothing is issued but by a receive. -/
theorem issue_eq_none (he : e ≠ .recv) : σ.issue e = none := by
  cases e with
  | recv => exact absurd rfl he
  | _ => rfl

theorem known_recvConnId {q r deadline : Nat} {datagram : List UInt8}
    {inbox : List (Nat × List UInt8)} {caller : Caller} {rest : List Nat} {txId : UInt32}
    (hp : Known (σ, issued)) (hinbox : σ.inbox = (q, datagram) :: inbox)
    (hphase : σ.phase = .awaitConnId caller deadline rest txId r) :
    Known ({ σ with inbox }.reply (connIdReply txId datagram σ.now)
      (fun () => afterConnId caller) (nextConnId σ.now caller rest),
      (σ.issue .recv).toList ++ issued) := by
  have hissue : σ.issue .recv =
      (issuedId txId (σ.arrived datagram)).map fun connId => (connId, σ.now) := by
    simp only [issue, hinbox, hphase]
  rw [hissue]
  unfold reply
  dsimp only
  rcases @connIdReply_issues txId σ.now σ.tracker _ datagram rfl with
    ⟨t', hreply, hissued, hts⟩ | ⟨e, t', hreply, hissued, hkeep⟩
  · rw [hreply, arrived, hissued]
    refine .inr ?_
    show some (t'.connId, σ.now) = some (t'.connId, t'.connIdTs)
    rw [hts]
  · rw [hreply, arrived, hissued]
    cases caller with
    | connect =>
      refine .inl ?_
      cases e with
      | error e => exact unconnected_nextConnId _ _
      | panicked => trivial
    | announce a =>
      exact hp.of_kept (by rw [hphase]; exact id) hkeep

/-- One step keeps the connection id the one received last. -/
theorem known_step (hp : Known p) (h : traced step issue p e = some p') : Known p' := by
  obtain ⟨σ, issued⟩ := p
  obtain ⟨σ', issued'⟩ := p'
  obtain ⟨hstep, rfl⟩ := traced_eq_some h
  change σ.step e = some σ' at hstep
  by_cases he : e = .recv
  · subst he
    cases stepped_of_step hstep with
    | turn hturn =>
      cases hturn with
      | connIdLost he _ => rcases he with he | he <;> cases he
      | announceLost he _ => rcases he with he | he <;> cases he
    | recvConnId hinbox hphase => exact known_recvConnId hp hinbox hphase
    | recvAnnounce hinbox hphase =>
      have hissue : σ.issue .recv = none := by simp only [issue, hinbox, hphase]
      dsimp only
      rw [hissue]
      refine hp.of_kept (by rw [hphase]; exact id) ?_
      exact tracker_reply (announceReply_keeps (fun _ _ => rfl) (fun _ _ => rfl) _ _ _)
  · dsimp only
    rw [issue_eq_none he]
    cases stepped_of_step hstep with
    | tick d => exact hp
    | answer => exact hp
    | turn hturn =>
      cases hturn with
      | call hphase =>
        refine hp.of_kept ?_ rfl
        rcases hphase with hphase | ⟨res, hphase⟩ <;> rw [hphase] <;> exact id
      | enter hphase => exact hp.of_kept (by rw [hphase]; exact id) rfl
      | @connIdLost _ caller _ _ _ _ _ hphase =>
        cases caller with
        | connect => exact .inl (unconnected_nextConnId _ _)
        | announce a => exact hp.of_kept (by rw [hphase]; exact id) rfl
      | announceLost _ hphase => exact hp.of_kept (by rw [hphase]; exact id) rfl
      | attemptLost hphase => exact hp.of_kept (by rw [hphase]; exact id) rfl
    | @askConnId caller _ _ _ _ _ hphase =>
      cases caller with
      | connect =>
        exact .inl (phase_ask (P := Phase.Unconnected) (fun _ => trivial)
          (unconnected_nextConnId _ _) trivial)
      | announce a =>
        refine hp.of_kept (by rw [hphase]; exact id) ?_
        exact tracker_ask (keeps_askConnId (fun _ _ => rfl) _ _ _)
    | askAnnounce hphase =>
      refine hp.of_kept (by rw [hphase]; exact id) ?_
      exact tracker_ask (keeps_askAnnounce (fun _ _ => rfl) _ _ _ _)
    | recvConnId _ _ => exact absurd rfl he
    | recvAnnounce _ _ => exact absurd rfl he

end Known

section Fresh

variable {σ σ' : Session} {e : Event} {a : Attempt}

theorem nextAttempt_ne_request (now : Nat) (args : Announce) (rest : List Nat) :
    nextAttempt now args rest ≠ .request a :=
  nextAttempt_of (P := fun phase => phase ≠ .request a) nofun (fun _ => nofun) now args rest

theorem nextConnId_ne_request (now : Nat) (caller : Caller) (rest : List Nat) :
    nextConnId now caller rest ≠ .request a :=
  nextConnId_of (P := fun phase => phase ≠ .request a) (fun _ _ _ => nofun) nofun
    nextAttempt_ne_request now caller rest

/-- An announce is gone on to with an id that is 60 seconds old at most. -/
theorem fresh_step (h : σ.step e = some σ') (hnext : σ'.phase = .request a)
    (hother : σ.phase ≠ .request a) : σ'.now - σ'.tracker.connIdTs ≤ secs 60 := by
  cases stepped_of_step h with
  | tick d => exact absurd hnext hother
  | answer => exact absurd hnext hother
  | turn hturn =>
    cases hturn with
    | call _ => exact (nextAttempt_ne_request σ.now _ retryTimeout hnext).elim
    | enter _ =>
      change σ.enter _ = .request a at hnext
      unfold enter at hnext
      split at hnext
      next => exact (nextAttempt_ne_request _ _ _ hnext).elim
      next =>
        split at hnext
        next => exact (nextConnId_ne_request _ _ _ hnext).elim
        next hage => exact Nat.le_of_not_lt hage
    | connIdLost _ _ => exact (nextConnId_ne_request _ _ _ hnext).elim
    | announceLost _ _ => exact (nextAttempt_ne_request _ _ _ hnext).elim
    | attemptLost _ => exact (nextAttempt_ne_request _ _ _ hnext).elim
  | askConnId _ =>
    exact absurd hnext (phase_ask (P := fun phase => phase ≠ .request a) (fun _ => nofun)
      (nextConnId_ne_request _ _ _) nofun)
  | askAnnounce _ =>
    exact absurd hnext (phase_ask (P := fun phase => phase ≠ .request a) (fun _ => nofun)
      (nextAttempt_ne_request _ _ _) nofun)
  | @recvConnId q r deadline datagram inbox caller rest txId _ _ =>
    -- an id that was just received
    unfold reply at hnext ⊢
    dsimp only at hnext ⊢
    rcases @connIdReply_issues txId σ.now σ.tracker _ datagram rfl with
      ⟨t', hreply, -, hts⟩ | ⟨err, t', hreply, -, -⟩
    · rw [hreply]
      show σ.now - t'.connIdTs ≤ _
      rw [hts, Nat.sub_self]
      exact Nat.zero_le _
    · rw [hreply] at hnext
      cases err with
      | error e => exact (nextConnId_ne_request _ _ _ hnext).elim
      | panicked => cases hnext
  | recvAnnounce _ _ =>
    exact absurd hnext (phase_reply (P := fun phase => phase ≠ .request a) (fun _ => nofun)
      (nextAttempt_ne_request _ _ _) nofun)

end Fresh

/-! ## What is sent -/

section Proper

variable {peerPort : UInt16} {key : UInt32} {p p' : Session × List (UInt64 × Nat)} {e : Event}

/-- What every run keeps. -/
structure Booked (peerPort : UInt16) (key : UInt32) (p : Session × List (UInt64 × Nat)) : Prop where
  ident : p.1.tracker.ident = (peerPort, key)
  known : Known p
  onSchedule : OnSchedule p.1

/-- One step keeps what every run keeps. -/
theorem Booked.step (hp : Booked peerPort key p) (h : traced step issue p e = some p') :
    Booked peerPort key p' where
  ident := (ident_step (traced_eq_some h).1).trans hp.ident
  known := known_step hp.known h
  onSchedule := onSchedule_step hp.onSchedule (traced_eq_some h).1

/-- The requests of a session, as they should be. -/
structure Proper (peerPort : UInt16) (key : UInt32) (p : Session × List (UInt64 × Nat))
    (e : Event) : Prop where
  sent : ∀ bytes, p.1.packet e = some bytes →
    (∃ txId, bytes = connectRequest txId) ∨
    ∃ a txId connId ts, p.1.phase = .request a ∧ p.2.head? = some (connId, ts) ∧
      p.1.tracker.nextAnnounce ≤ p.1.now ∧
      bytes = announceRequest connId txId a.args key peerPort
  fresh : ∀ p', traced step issue p e = some p' → ∀ a, p'.1.phase = .request a →
    p.1.phase ≠ .request a → ∃ connId ts, p'.2.head? = some (connId, ts) ∧
      p'.1.now - ts ≤ secs 60

/-- What every run keeps makes the packet of the next step a proper one. -/
theorem Booked.proper (hp : Booked peerPort key p) : Proper peerPort key p e where
  sent := by
    intro bytes hbytes
    unfold packet at hbytes
    split at hbytes
    next txId grow =>
      split at hbytes
      next =>
        rw [← Option.some.inj hbytes]
        exact .inl ⟨txId, askConnId_data ..⟩
      next a hphase =>
        rw [← Option.some.inj hbytes, askAnnounce_data]
        have hissued := hp.known.resolve_left (by rw [hphase]; exact id)
        obtain ⟨hport, hkey⟩ := Prod.mk.inj hp.ident
        refine .inr ⟨a, txId, _, _, hphase, hissued, hp.onSchedule (by rw [hphase]; trivial), ?_⟩
        rw [hport, hkey]
      next => cases hbytes
    next => cases hbytes
  fresh := by
    intro p' h a hnext hother
    have hissued := (hp.step h).known.resolve_left (by rw [hnext]; exact id)
    exact ⟨_, _, hissued, fresh_step (traced_eq_some h).1 hnext hother⟩

/-- **What a tracker is asked.** In every run, a packet is a connect request, or an
announce for the torrent of the call that carries the id issued last, the run's key
and the tracker's port, at a time when the interval is over. The id is not more than
60 seconds old when `send_announce` goes on to the request. -/
theorem announces_proper (now : Nat) (peerPort : UInt16) (key : UInt32) (as : List Event) :
    AllSteps (traced step issue) (Proper peerPort key) (new now peerPort key, []) as := by
  have hnew : Booked peerPort key (new now peerPort key, []) := ⟨rfl, .inl trivial, False.elim⟩
  exact allSteps_of_invariant (fun _ _ _ hp _ h => hp.step h) (fun _ _ hp _ => hp.proper) hnew
    (allSteps_true _ as)

/-- A second announce, after the first one's interval: the id is asked for anew. -/
example :
    let again : List Event := [.recv, .tick (secs 1800), .call someAnnounce, .enter, .ask 3 0 true,
      .answer 2 (u32Bytes actionConnect ++ (u32Bytes 3 ++ u64Bytes 8)), .recv]
    (run (traced step issue) (new 0 80 7, []) (firstAnnounce [] ++ again)).map
        (fun p => (p.1.packet (.ask 4 0 true), p.2)) =
      some (some (announceRequest 8 4 someAnnounce 7 80), [(8, secs 1800), (5, 0)]) := by
  decide +kernel

end Proper

/-! ## What is returned -/

section Truthful

variable {txId interval seeders : UInt32} {now : Nat} {t t' : UdpTracker}
  {data datagram tail : List UInt8} {peers : List SocketAddr}

/-- Bytes whose number is a multiple of six are those of peers. -/
theorem exists_peers (h : data.length % 6 = 0) :
    ∃ peers : List SocketAddr, data = peers.flatMap SocketAddr.bytes := by
  refine ⟨(chunkPeers data).map Peer.addr, ?_⟩
  rw [List.flatMap_map]
  exact (flatMap_chunkPeers h).symm

/-- A reply that is accepted is a response, to its last byte. -/
theorem response_of_announceReply
    (h : announceReply txId datagram now t = (.ok (peers, seeders), t')) :
    ∃ interval leechers,
      (t.buf.recv datagram).data = response txId interval leechers seeders peers := by
  have hlen := length_of_announceReply h
  have hout := announceReply_outcome txId datagram now t
  rw [h] at hout
  cases hout with
  | accepted hcarries =>
    obtain ⟨-, tail, hdata⟩ := hcarries
    rw [hdata] at hlen
    simp only [List.length_append, length_u32Bytes] at hlen
    obtain ⟨interval, tail, rfl⟩ := exists_u32 (show 4 ≤ tail.length by omega)
    simp only [List.length_append, length_u32Bytes] at hlen
    obtain ⟨leechers, tail, rfl⟩ := exists_u32 (show 4 ≤ tail.length by omega)
    simp only [List.length_append, length_u32Bytes] at hlen
    obtain ⟨seeders', tail, rfl⟩ := exists_u32 (show 4 ≤ tail.length by omega)
    simp only [List.length_append, length_u32Bytes] at hlen
    obtain ⟨peers', rfl⟩ := @exists_peers tail (by omega)
    -- it is read as the response that it is
    obtain ⟨t'', h'⟩ := @announceReply_of_eq t txId interval leechers seeders' peers' now datagram
      hdata
    rw [h] at h'
    obtain ⟨rfl, rfl⟩ := Prod.mk.inj (Except.ok.inj (Prod.mk.inj h').1)
    exact ⟨interval, leechers, hdata⟩

/-- Then the next announce has to wait for the interval of the response. -/
theorem nextAnnounce_of_announceReply
    (hdata : (t.buf.recv datagram).data =
      u32Bytes actionAnnounce ++ (u32Bytes txId ++ (u32Bytes interval ++ tail)))
    {res : List SocketAddr × UInt32} (h : announceReply txId datagram now t = (.ok res, t')) :
    t'.nextAnnounce = now + secs interval.toNat := by
  rw [announceReply_eq, opened_then] at h
  rcases @opened_outcome (20 ≤ ·) actionAnnounce txId t _ datagram _ (fun n hn => by omega)
    (by decide) rfl with ⟨t₁, hopened, -, hcarries⟩ | ⟨e, t₁, hopened, -⟩
  · rw [hdata] at hcarries
    have htail := (u32Bytes_append_inj (u32Bytes_append_inj hcarries).2).2
    obtain ⟨t₂, h₂, -⟩ := read_getU32 htail.symm
    rw [bind_of_ok hopened] at h
    unfold announceRest at h
    rw [bind_of_ok h₂] at h
    obtain ⟨u, t₃, hset, h⟩ := bind_eq_ok h
    -- nothing after that sets it again
    refine (Keeps.of_eq (g := UdpTracker.nextAnnounce) ?_ h).trans ?_
    · have hread {α : Type} := @keeps_read α Nat _ nextAnnounce_buf
      refine (hread _).bind fun leechers => (hread _).bind fun seeders => ?_
      refine (keeps_field _).bind fun n => (keeps_ensure _ _).bind fun _ => ?_
      refine (keeps_field _).bind fun n => (keeps_readPeers nextAnnounce_buf _).bind fun peers => ?_
      exact keeps_pure _
    · rw [← (Prod.mk.inj hset).2]
  · rw [bind_of_error hopened] at h
    cases (Prod.mk.inj h).1

/-- When `announce` returns peers, they are those of a response to the last request,
and the interval of the response is waited for. -/
def Truthful (σ : Session) (e : Event) : Prop :=
  ∀ σ' peers seeders, σ.step e = some σ' → σ'.phase = .returned (.ok (peers, seeders)) →
    σ.phase = σ'.phase ∨
    ∃ a txId r q datagram inbox interval leechers, σ.phase = .awaitAnnounce a txId r ∧
      σ.inbox = (q, datagram) :: inbox ∧
      datagram.take σ.tracker.buf.capacity = response txId interval leechers seeders peers ∧
      σ'.tracker.nextAnnounce = σ.now + secs interval.toNat

theorem nextConnId_ne_ok (now : Nat) (caller : Caller) (rest : List Nat)
    (res : List SocketAddr × UInt32) : nextConnId now caller rest ≠ .returned (.ok res) :=
  nextConnId_of (P := fun phase => phase ≠ .returned (.ok res)) (fun _ _ _ => nofun) nofun
    (fun now args rest => nextAttempt_ne_ok now args rest res) now caller rest

theorem enter_ne_ok (σ : Session) (a : Attempt) (res : List SocketAddr × UInt32) :
    σ.enter a ≠ .returned (.ok res) := by
  unfold enter
  split
  next => exact nextAttempt_ne_ok _ _ _ _
  next =>
    split
    next => exact nextConnId_ne_ok _ _ _ _
    next => nofun

/-- What `announce` returns was read from the datagram of this step. -/
theorem Inv.truthful {σ : Session} {e : Event} (hinv : Inv σ) : Truthful σ e := by
  intro σ' peers seeders hstep hret
  cases stepped_of_step hstep with
  | tick d => exact .inl rfl
  | answer => exact .inl rfl
  | turn hturn =>
    cases hturn with
    | call _ => exact (nextAttempt_ne_ok σ.now _ retryTimeout _ hret).elim
    | enter _ => exact (enter_ne_ok _ _ _ hret).elim
    | connIdLost _ _ => exact (nextConnId_ne_ok _ _ _ _ hret).elim
    | announceLost _ _ => exact (nextAttempt_ne_ok _ _ _ _ hret).elim
    | attemptLost _ => exact (nextAttempt_ne_ok _ _ _ _ hret).elim
  | askConnId _ =>
    exact absurd hret (phase_ask (P := fun phase => phase ≠ .returned (.ok (peers, seeders)))
      (fun _ => nofun) (nextConnId_ne_ok _ _ _ _) nofun)
  | askAnnounce _ =>
    exact absurd hret (phase_ask (P := fun phase => phase ≠ .returned (.ok (peers, seeders)))
      (fun _ => nofun) (nextAttempt_ne_ok _ _ _ _) nofun)
  | @recvConnId _ _ _ _ _ caller _ _ _ _ =>
    refine absurd hret (phase_reply (P := fun phase => phase ≠ .returned (.ok (peers, seeders)))
      (fun _ => ?_) (nextConnId_ne_ok _ _ _ _) nofun)
    cases caller <;> nofun
  | @recvAnnounce q r datagram inbox a txId hinbox hphase =>
    have hempty : σ.tracker.buf.data = [] := hinv.received r (by rw [hphase]; rfl)
    unfold reply at hret ⊢
    dsimp only at hret ⊢
    cases hreply : announceReply txId datagram σ.now σ.tracker with
    | mk res tracker =>
      rw [hreply] at hret
      cases res with
      | ok res =>
        obtain rfl := Except.ok.inj (Phase.returned.inj hret)
        obtain ⟨interval, leechers, hdata⟩ := response_of_announceReply hreply
        refine .inr ⟨a, txId, r, q, datagram, inbox, interval, leechers, hphase, hinbox, ?_, ?_⟩
        · rw [← BytesMut.recv_data hempty, hdata]
        · exact nextAnnounce_of_announceReply hdata hreply
      | error err =>
        cases err with
        | error e => exact (nextAttempt_ne_ok _ _ _ _ hret).elim
        | panicked => cases hret

/-- **The peers are what the tracker sent.** In every run, whatever the replies are:
what `announce` returns stands in a datagram that answers its last request, and the
next announce is due after the interval of this datagram. -/
theorem announce_truthful (now : Nat) (peerPort : UInt16) (key : UInt32) (as : List Event) :
    AllSteps step Truthful (new now peerPort key) as :=
  allSteps_of_invariant (fun _ _ _ hinv _ h => Inv.step hinv h) (fun _ _ hinv _ => hinv.truthful)
    (Inv.new now peerPort key) (allSteps_true _ as)

end Truthful

end Session

end Udp

end BitTorrent
