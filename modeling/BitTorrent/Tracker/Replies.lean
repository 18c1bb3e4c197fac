import BitTorrent.Tracker.Udp

/-!
# What becomes of a reply (`tracker/udp.rs`)

`get_conn_id` and `send_announce` look at the first eight bytes of a reply in the
same way (`opened`): its length, the transaction id, the action. Whatever arrives,
there are three cases (`opens`). The reply is refused; it is an error of the
tracker whose text is no UTF-8, and the `unwrap` of it panics (`Garbled`); or it
has the action and the transaction id of the request (`Carries`), and is read on.

What a method leaves as it is, is told by what reads it (`Keeps`); up to there
nothing but the buffer changes. A response to an
announce that is read on sets `next_announce`, and only then its peers are
counted: when they are `Cut`, the announce fails with `next_announce` set
(`announceReply_outcome`).

The three cases are told by the bytes of the datagram as far as the buffer has room
for it, and by nothing else of the state. So they can be used in conditions on what
a tracker sends, which do not mention the code.
-/

namespace BitTorrent

namespace Udp

namespace TrackerM

section Keeps

variable {α β γ : Type} {g : UdpTracker → γ} {m : TrackerM α} {f : α → TrackerM β}
  {t t' : UdpTracker}

/-- What `g` reads of the fields is the same after `m`. -/
def Keeps (g : UdpTracker → γ) (m : TrackerM α) : Prop := ∀ t, g (m t).2 = g t

theorem Keeps.of_eq (hm : Keeps g m) {res : Except Failure α} (h : m t = (res, t')) :
    g t' = g t := by
  rw [← hm t, h]

/-- What both parts of a method keep, it keeps. -/
theorem Keeps.bind (hm : Keeps g m) (hf : ∀ a, Keeps g (f a)) : Keeps g (m >>= f) := by
  intro t
  cases h : m t with
  | mk res t₁ =>
    cases res with
    | ok a => rw [bind_of_ok h, hf a t₁, hm.of_eq h]
    | error e => rw [bind_of_error h, hm.of_eq h]

theorem keeps_pure (a : α) : Keeps g (pure a : TrackerM α) := fun _ => rfl

theorem keeps_fail (e : Failure) : Keeps g (fail e : TrackerM α) := fun _ => rfl

theorem keeps_field (h : UdpTracker → α) : Keeps g (field h) := fun _ => rfl

theorem keeps_ensure (c : Prop) [Decidable c] (e : TrackerError) : Keeps g (ensure c e) :=
  fun _ => rfl

theorem keeps_send (sent : Bool) : Keeps g (send sent) := fun _ => rfl

/-! What does not read the buffer. -/

variable (hg : ∀ t buf, g { t with buf } = g t)

include hg

theorem keeps_onBuf (h : BytesMut → BytesMut) : Keeps g (modify (UdpTracker.onBuf h)) :=
  fun t => hg t _

theorem keeps_read (get : BytesMut → Option (α × BytesMut)) : Keeps g (read get) := by
  intro t
  unfold read
  cases get t.buf with
  | none => rfl
  | some p => exact hg t p.2

end Keeps

end TrackerM

open TrackerM

section Methods

variable {α γ : Type} {g : UdpTracker → γ} (hg : ∀ t buf, g { t with buf } = g t)

include hg

/-- A connect request changes the buffer only. -/
theorem keeps_askConnId (txId : UInt32) (grow : Nat) (sent : Bool) :
    Keeps g (askConnId txId grow sent) := by
  unfold askConnId
  refine Keeps.bind (keeps_onBuf hg _) fun _ => Keeps.bind (keeps_onBuf hg _) fun _ => ?_
  refine Keeps.bind (keeps_onBuf hg _) fun _ => Keeps.bind (keeps_onBuf hg _) fun _ => ?_
  refine (keeps_send sent).bind fun n => (keeps_field _).bind fun m => ?_
  exact (keeps_ensure _ _).bind fun _ => keeps_onBuf hg _

/-- An announce request changes the buffer only. -/
theorem keeps_askAnnounce (args : Announce) (txId : UInt32) (grow : Nat) (sent : Bool) :
    Keeps g (askAnnounce args txId grow sent) := by
  unfold askAnnounce
  refine Keeps.bind (keeps_onBuf hg _) fun _ => (keeps_field _).bind fun connId => ?_
  -- the fields of the request, down to the key
  iterate 10 refine Keeps.bind (keeps_onBuf hg _) fun _ => ?_
  refine (keeps_field _).bind fun key => ?_
  iterate 2 refine Keeps.bind (keeps_onBuf hg _) fun _ => ?_
  refine (keeps_field _).bind fun port => Keeps.bind (keeps_onBuf hg _) fun _ => ?_
  exact (keeps_send sent).bind fun n => (keeps_ensure _ _).bind fun _ => keeps_onBuf hg _

/-- `validate_action` reads the buffer only. -/
theorem keeps_validateAction (expected action : UInt32) :
    Keeps g (validateAction expected action) := by
  unfold validateAction
  split
  · exact keeps_pure ()
  · split
    · refine (keeps_field _).bind fun n => (keeps_read hg _).bind fun msg => ?_
      split
      · exact keeps_fail _
      · exact keeps_fail _
    · exact keeps_fail _

/-- The reads of the peers change the buffer only. -/
theorem keeps_readPeers (n : Nat) : Keeps g (readPeers n) := by
  induction n with
  | zero => exact keeps_pure []
  | succ n ih =>
    exact (keeps_read hg _).bind fun ip => (keeps_read hg _).bind fun port =>
      ih.bind fun peers => keeps_pure _

end Methods

/-- The time of the next announce is not in the buffer. -/
theorem nextAnnounce_buf (t : UdpTracker) (buf : BytesMut) :
    { t with buf }.nextAnnounce = t.nextAnnounce := rfl

/-! ## The first eight bytes -/

/-- How both replies begin; `k` is what is done with the rest of one that has the
right size, transaction id and action. -/
def opened {α : Type} (size : Nat → Prop) [DecidablePred size] (expected txId : UInt32)
    (datagram : List UInt8) (k : TrackerM α) : TrackerM α := do
  recv datagram
  ensure (size (← remaining)) .ensure
  let action ← read BytesMut.getU32
  ensure (txId = (← read BytesMut.getU32)) .ensure
  validateAction expected action
  k

/-- What the rest of a reply keeps, the reply keeps. -/
theorem keeps_opened {α γ : Type} {g : UdpTracker → γ} (hg : ∀ t buf, g { t with buf } = g t)
    (size : Nat → Prop) [DecidablePred size] (expected txId : UInt32) (datagram : List UInt8)
    {k : TrackerM α} (hk : Keeps g k) : Keeps g (opened size expected txId datagram k) := by
  unfold opened
  refine Keeps.bind (keeps_onBuf hg _) fun _ => (keeps_field _).bind fun n => ?_
  refine (keeps_ensure _ _).bind fun _ => (keeps_read hg _).bind fun action => ?_
  refine (keeps_read hg _).bind fun tx => (keeps_ensure _ _).bind fun _ => ?_
  exact (keeps_validateAction hg expected action).bind fun _ => hk

/-- The reply has the action expected and the transaction id of the request. -/
def Carries (size : Nat → Prop) (expected txId : UInt32) (data : List UInt8) : Prop :=
  size data.length ∧ ∃ tail, data = u32Bytes expected ++ (u32Bytes txId ++ tail)

/-- The reply is an error of the tracker, and its text is no UTF-8. -/
def Garbled (size : Nat → Prop) (txId : UInt32) (data : List UInt8) : Prop :=
  size data.length ∧ ∃ msg, data = u32Bytes actionError ++ (u32Bytes txId ++ msg) ∧
    ∀ text, fromUtf8 msg ≠ .ok text

/-- What comes of a reply that starts with `data`. -/
inductive Opens {α : Type} (size : Nat → Prop) (expected txId : UInt32) (k : TrackerM α)
    (t : UdpTracker) (data : List UInt8) : Except Failure α × UdpTracker → Prop
  | refused {e : TrackerError} {t' : UdpTracker} (hcarries : ¬ Carries size expected txId data)
    (hreadable : ¬ Garbled size txId data) (hkeep : t'.nextAnnounce = t.nextAnnounce) :
    Opens size expected txId k t data (.error (.error e), t')
  | garbled {t' : UdpTracker} (h : Garbled size txId data)
    (hkeep : t'.nextAnnounce = t.nextAnnounce) :
    Opens size expected txId k t data (.error .panicked, t')
  | carries {t' : UdpTracker} (hcarries : Carries size expected txId data)
    (hdata : data = u32Bytes expected ++ (u32Bytes txId ++ t'.buf.data))
    (hkeep : t'.nextAnnounce = t.nextAnnounce) : Opens size expected txId k t data (k t')

section Opened

variable {α : Type} {size : Nat → Prop} {expected txId tx action : UInt32} {k : TrackerM α}
  {t : UdpTracker} {data datagram tail : List UInt8}

/-- A datagram carries a reply by its length, action and transaction id. -/
theorem carries_iff (hdata : data = u32Bytes action ++ (u32Bytes tx ++ tail)) :
    Carries size expected txId data ↔ size data.length ∧ action = expected ∧ tx = txId := by
  constructor
  · intro h
    obtain ⟨hsize, tail', h⟩ := h
    rw [hdata] at h
    obtain ⟨haction, h⟩ := u32Bytes_append_inj h
    exact ⟨hsize, haction, (u32Bytes_append_inj h).1⟩
  · intro h
    obtain ⟨hsize, rfl, rfl⟩ := h
    exact ⟨hsize, tail, hdata⟩

/-- A datagram is garbled by its action, transaction id and text. -/
theorem garbled_iff (hdata : data = u32Bytes action ++ (u32Bytes tx ++ tail)) :
    Garbled size txId data ↔
      size data.length ∧ action = actionError ∧ tx = txId ∧ ∀ text, fromUtf8 tail ≠ .ok text := by
  constructor
  · intro h
    obtain ⟨hsize, msg, h, hmsg⟩ := h
    rw [hdata] at h
    obtain ⟨haction, h⟩ := u32Bytes_append_inj h
    obtain ⟨htx, rfl⟩ := u32Bytes_append_inj h
    exact ⟨hsize, haction, htx, hmsg⟩
  · intro h
    obtain ⟨hsize, rfl, rfl, hmsg⟩ := h
    exact ⟨hsize, tail, hdata, hmsg⟩

/-- An error of the tracker is not what was asked for. -/
theorem Carries.not_garbled (hne : expected ≠ actionError) (h : Carries size expected txId data) :
    ¬ Garbled size txId data := by
  obtain ⟨-, tail, hdata⟩ := h
  rw [garbled_iff hdata]
  intro hgarbled
  exact hne hgarbled.2.1

theorem validateAction_self : validateAction expected expected t = (.ok (), t) := by
  unfold validateAction
  rw [if_pos rfl]
  rfl

theorem validateAction_other (hne : action ≠ expected) (herror : action ≠ actionError) :
    validateAction expected action t = (.error (.error (.action expected action)), t) := by
  unfold validateAction
  rw [if_neg hne, if_neg herror]
  rfl

/-- The rest of the reply is read as the text of an error. -/
theorem validateAction_error (hne : expected ≠ actionError) :
    (∃ text t', fromUtf8 t.buf.data = .ok text ∧
      validateAction expected actionError t = (.error (.error (.tracker text)), t') ∧
      t'.nextAnnounce = t.nextAnnounce) ∨
    (∃ t', (∀ text, fromUtf8 t.buf.data ≠ .ok text) ∧
      validateAction expected actionError t = (.error .panicked, t') ∧
      t'.nextAnnounce = t.nextAnnounce) := by
  obtain ⟨buf, hget, -⟩ := BytesMut.get_of_eq (List.append_nil t.buf.data).symm rfl
  let t₁ : UdpTracker := { t with buf }
  have hread : read (BytesMut.get t.buf.remaining) t = (.ok t.buf.data, t₁) := read_of_eq hget
  unfold validateAction
  rw [if_neg hne.symm, if_pos rfl, bind_of_ok (remaining_eq t), bind_of_ok hread]
  cases hmsg : fromUtf8 t.buf.data with
  | ok text => exact .inl ⟨text, t₁, rfl, rfl, rfl⟩
  | error e => exact .inr ⟨t₁, nofun, rfl, rfl⟩

/-- What is made of the action, when the size and the transaction id are right. -/
theorem opens_validate {t₂ : UdpTracker} (hne : expected ≠ actionError) (hsize : size data.length)
    (hdata : data = u32Bytes action ++ (u32Bytes txId ++ t₂.buf.data))
    (hkeep : t₂.nextAnnounce = t.nextAnnounce) :
    Opens size expected txId k t data ((validateAction expected action >>= fun _ => k) t₂) := by
  by_cases hexpected : action = expected
  · subst hexpected
    rw [bind_of_ok validateAction_self]
    exact .carries ⟨hsize, _, hdata⟩ hdata hkeep
  · have hcarries : ¬ Carries size expected txId data := by
      rw [carries_iff hdata]
      intro h
      exact hexpected h.2.1
    by_cases herror : action = actionError
    · subst herror
      rcases validateAction_error hne with
        ⟨text, t₃, htext, hvalid, hkeep₃⟩ | ⟨t₃, htext, hvalid, hkeep₃⟩
      · rw [bind_of_error hvalid]
        refine .refused hcarries ?_ (hkeep₃.trans hkeep)
        rw [garbled_iff hdata]
        intro h
        exact h.2.2.2 text htext
      · rw [bind_of_error hvalid]
        exact .garbled ⟨hsize, _, hdata, htext⟩ (hkeep₃.trans hkeep)
    · rw [bind_of_error (validateAction_other hexpected herror)]
      refine .refused hcarries ?_ hkeep
      rw [garbled_iff hdata]
      intro h
      exact herror h.2.1

/-- Every reply is refused, is garbled, or carries what was asked for. -/
theorem opens [DecidablePred size] (hlen : ∀ n, size n → 8 ≤ n) (hne : expected ≠ actionError) :
    Opens size expected txId k t (t.buf.recv datagram).data
      (opened size expected txId datagram k t) := by
  let t₀ := t.onBuf fun buf => buf.recv datagram
  have hrecv : recv datagram t = (.ok (), t₀) := rfl
  show Opens size expected txId k t t₀.buf.data _
  unfold opened
  rw [bind_of_ok hrecv, bind_of_ok (remaining_eq t₀)]
  by_cases hsize : size t₀.buf.data.length
  · rw [bind_of_ok (ensure_of (show size t₀.buf.remaining from hsize) t₀)]
    have h8 := hlen _ hsize
    obtain ⟨action, rest, hrest⟩ := exists_u32 (show 4 ≤ t₀.buf.data.length by omega)
    rw [hrest, List.length_append, length_u32Bytes] at h8
    obtain ⟨tx, tail, rfl⟩ := exists_u32 (show 4 ≤ rest.length by omega)
    obtain ⟨t₁, h₁, hdata₁⟩ := read_getU32 hrest
    obtain ⟨t₂, h₂, rfl⟩ := read_getU32 hdata₁
    have hkeep : t₂.nextAnnounce = t₀.nextAnnounce :=
      ((keeps_read nextAnnounce_buf _).of_eq h₂).trans ((keeps_read nextAnnounce_buf _).of_eq h₁)
    rw [bind_of_ok h₁, bind_of_ok h₂]
    by_cases htx : txId = tx
    · subst htx
      rw [bind_of_ok (ensure_of rfl t₂)]
      exact opens_validate hne hsize hrest hkeep
    · rw [bind_of_error (ensure_of_not htx t₂)]
      refine .refused ?_ ?_ hkeep
      · rw [carries_iff hrest]
        intro h
        exact htx h.2.2.symm
      · rw [garbled_iff hrest]
        intro h
        exact htx h.2.2.1.symm
  · rw [bind_of_error (ensure_of_not (show ¬ size t₀.buf.remaining from hsize) t₀)]
    refine .refused ?_ ?_ rfl
    · intro h
      exact hsize h.1
    · intro h
      exact hsize h.1

end Opened

/-! ## The rest -/

/-- `connIdReply` after the check of the action. -/
def connIdRest (now : Nat) : TrackerM Unit := do
  let connId ← read BytesMut.getU64
  modify fun t => { t with connId, connIdTs := now }

/-- `announceReply` after the check of the action. -/
def announceRest (now : Nat) : TrackerM (List SocketAddr × UInt32) := do
  let interval ← read BytesMut.getU32
  modify fun t => { t with nextAnnounce := now + secs interval.toNat }
  let _leechers ← read BytesMut.getU32
  let seeders ← read BytesMut.getU32
  ensure ((← remaining) % 6 = 0) .notDivisible
  let numPeers := (← remaining) / 6
  let peers ← readPeers numPeers
  pure (peers, seeders)

/-- A successful response whose peers are cut off in the middle of one. -/
def Cut (txId interval : UInt32) (data : List UInt8) : Prop :=
  ∃ tail, data = u32Bytes actionAnnounce ++ (u32Bytes txId ++ (u32Bytes interval ++ tail)) ∧
    8 ≤ tail.length ∧ (tail.length - 8) % 6 ≠ 0

/-- What comes of a reply to an announce that starts with `data`. -/
inductive AnnounceOutcome (txId : UInt32) (now : Nat) (t : UdpTracker) (data : List UInt8) :
    Except Failure (List SocketAddr × UInt32) × UdpTracker → Prop
  | refused {e : TrackerError} {t' : UdpTracker} (hcut : ∀ interval, ¬ Cut txId interval data)
    (hreadable : ¬ Garbled (20 ≤ ·) txId data) (hkeep : t'.nextAnnounce = t.nextAnnounce) :
    AnnounceOutcome txId now t data (.error (.error e), t')
  | garbled {t' : UdpTracker} (h : Garbled (20 ≤ ·) txId data) :
    AnnounceOutcome txId now t data (.error .panicked, t')
  | cut {interval : UInt32} {t' : UdpTracker} (h : Cut txId interval data)
    (hset : t'.nextAnnounce = now + secs interval.toNat) :
    AnnounceOutcome txId now t data (.error (.error .notDivisible), t')
  | accepted {res : List SocketAddr × UInt32} {t' : UdpTracker}
    (hcarries : Carries (20 ≤ ·) actionAnnounce txId data) :
    AnnounceOutcome txId now t data (.ok res, t')

section Rest

variable {txId interval : UInt32} {now n : Nat} {t : UdpTracker} {data datagram tail : List UInt8}

/-- The reply to a connect request: the common part, and the id. -/
theorem connIdReply_eq (txId : UInt32) (datagram : List UInt8) (now : Nat) :
    connIdReply txId datagram now = opened (16 = ·) actionConnect txId datagram (connIdRest now) :=
  rfl

/-- The reply to an announce request: the common part, and the peers. -/
theorem announceReply_eq (txId : UInt32) (datagram : List UInt8) (now : Nat) :
    announceReply txId datagram now =
      opened (20 ≤ ·) actionAnnounce txId datagram (announceRest now) := rfl

/-- What a datagram does to the one who waits for a connection id. -/
theorem connIdReply_opens (txId : UInt32) (datagram : List UInt8) (now : Nat) (t : UdpTracker) :
    Opens (16 = ·) actionConnect txId (connIdRest now) t (t.buf.recv datagram).data
      (connIdReply txId datagram now t) := by
  rw [connIdReply_eq]
  exact opens (fun n hn => by omega) (by decide)

/-- A reply to a connect request changes the buffer and the connection id only. -/
theorem connIdReply_keeps {γ : Type} {g : UdpTracker → γ} (hg : ∀ t buf, g { t with buf } = g t)
    (hset : ∀ t connId connIdTs, g { t with connId, connIdTs } = g t) (txId : UInt32)
    (datagram : List UInt8) (now : Nat) : Keeps g (connIdReply txId datagram now) := by
  rw [connIdReply_eq]
  refine keeps_opened hg _ _ _ _ ?_
  exact (keeps_read hg _).bind fun connId t => hset t connId now

theorem connIdRest_ok (hlen : 8 ≤ t.buf.data.length) :
    ∃ t', connIdRest now t = (.ok (), t') := by
  obtain ⟨connId, buf, hget, -⟩ := BytesMut.getU64_of_le hlen
  unfold connIdRest
  rw [bind_of_ok (read_of_eq hget)]
  exact ⟨_, rfl⟩

/-- A response that is cut is a response. -/
theorem Cut.carries (h : Cut txId interval data) : Carries (20 ≤ ·) actionAnnounce txId data := by
  obtain ⟨tail, rfl, hlen, -⟩ := h
  refine ⟨?_, _, rfl⟩
  simp only [List.length_append, length_u32Bytes]
  omega

theorem Cut.inj {interval' : UInt32} (h : Cut txId interval data) (h' : Cut txId interval' data) :
    interval = interval' := by
  obtain ⟨tail, hdata, -⟩ := h
  obtain ⟨tail', hdata', -⟩ := h'
  rw [hdata] at hdata'
  exact (u32Bytes_append_inj (u32Bytes_append_inj (u32Bytes_append_inj hdata').2).2).1

/-- The loop over the peers does not read past the end. -/
theorem readPeers_ok : ∀ {n : Nat} {t : UdpTracker}, t.buf.data.length = 6 * n →
    ∃ peers t', readPeers n t = (.ok peers, t') := by
  intro n
  induction n with
  | zero => intro t _; exact ⟨[], t, rfl⟩
  | succ n ih =>
    intro t hlen
    obtain ⟨ip, buf₁, hip, hlen₁⟩ := BytesMut.getU32_of_le (show 4 ≤ t.buf.data.length by omega)
    obtain ⟨port, buf₂, hport, hlen₂⟩ := BytesMut.getU16_of_le (show 2 ≤ buf₁.data.length by omega)
    let t₁ : UdpTracker := { t with buf := buf₁ }
    let t₂ : UdpTracker := { t with buf := buf₂ }
    have h₁ : read BytesMut.getU32 t = (.ok ip, t₁) := read_of_eq hip
    have h₂ : read BytesMut.getU16 t₁ = (.ok port, t₂) := read_of_eq hport
    obtain ⟨peers, t₃, h₃⟩ := @ih t₂ (show buf₂.data.length = 6 * n by omega)
    refine ⟨{ ip, port } :: peers, t₃, ?_⟩
    unfold readPeers
    rw [bind_of_ok h₁, bind_of_ok h₂, bind_of_ok h₃]
    rfl

/-- The peers are returned, or counted in vain: `nextAnnounce` is set by then. -/
theorem announceRest_eq (hdata : t.buf.data = u32Bytes interval ++ tail) (hlen : 8 ≤ tail.length) :
    (∃ res t', (tail.length - 8) % 6 = 0 ∧ announceRest now t = (.ok res, t')) ∨
    (∃ t', (tail.length - 8) % 6 ≠ 0 ∧ announceRest now t = (.error (.error .notDivisible), t') ∧
      t'.nextAnnounce = now + secs interval.toNat) := by
  obtain ⟨t₁, h₁, rfl⟩ := read_getU32 hdata
  obtain ⟨leechers, buf₃, hget₃, hlen₃⟩ :=
    BytesMut.getU32_of_le (show 4 ≤ t₁.buf.data.length by omega)
  obtain ⟨seeders, buf₄, hget₄, hlen₄⟩ := BytesMut.getU32_of_le (show 4 ≤ buf₃.data.length by omega)
  let t₂ : UdpTracker := { t₁ with nextAnnounce := now + secs interval.toNat }
  let t₃ : UdpTracker := { t₂ with buf := buf₃ }
  let t₄ : UdpTracker := { t₂ with buf := buf₄ }
  have h₂ : modify (fun t => { t with nextAnnounce := now + secs interval.toNat }) t₁ =
      (.ok (), t₂) := rfl
  have h₃ : read BytesMut.getU32 t₂ = (.ok leechers, t₃) := read_of_eq hget₃
  have h₄ : read BytesMut.getU32 t₃ = (.ok seeders, t₄) := read_of_eq hget₄
  have hrem : t₄.buf.remaining = t₁.buf.data.length - 8 := by
    show buf₄.data.length = _
    omega
  unfold announceRest
  rw [bind_of_ok h₁, bind_of_ok h₂, bind_of_ok h₃, bind_of_ok h₄, bind_of_ok (remaining_eq t₄)]
  by_cases hdiv : t₄.buf.remaining % 6 = 0
  · obtain ⟨peers, t₅, h₅⟩ := @readPeers_ok (t₄.buf.remaining / 6) t₄ (by
      show t₄.buf.remaining = _
      omega)
    rw [bind_of_ok (ensure_of hdiv t₄), bind_of_ok (remaining_eq t₄), bind_of_ok h₅]
    exact .inl ⟨(peers, seeders), t₅, hrem ▸ hdiv, rfl⟩
  · rw [bind_of_error (ensure_of_not hdiv t₄)]
    exact .inr ⟨t₄, hrem ▸ hdiv, rfl, rfl⟩

/-- What a datagram does to the one who waits for peers. -/
theorem announceReply_outcome (txId : UInt32) (datagram : List UInt8) (now : Nat)
    (t : UdpTracker) :
    AnnounceOutcome txId now t (t.buf.recv datagram).data (announceReply txId datagram now t) := by
  have hopens : Opens (20 ≤ ·) actionAnnounce txId (announceRest now) t (t.buf.recv datagram).data
      (announceReply txId datagram now t) := by
    rw [announceReply_eq]
    exact opens (fun n hn => by omega) (by decide)
  generalize (t.buf.recv datagram).data = data at hopens ⊢
  generalize announceReply txId datagram now t = out at hopens ⊢
  cases hopens with
  | refused hcarries hreadable hkeep =>
    exact .refused (fun interval h => hcarries h.carries) hreadable hkeep
  | garbled h hkeep => exact .garbled h
  | @carries t₁ hcarries hdata hkeep =>
    have hlen := hcarries.1
    rw [hdata] at hlen
    simp only [List.length_append, length_u32Bytes] at hlen
    obtain ⟨interval, tail, htail⟩ := exists_u32 (show 4 ≤ t₁.buf.data.length by omega)
    rw [htail, List.length_append, length_u32Bytes] at hlen
    rcases @announceRest_eq interval now t₁ tail htail (by omega) with
      ⟨res, t₂, hdiv, hrest⟩ | ⟨t₂, hdiv, hrest, hset⟩
    · rw [hrest]
      exact .accepted hcarries
    · rw [hrest]
      exact .cut ⟨tail, by rw [hdata, htail], by omega, hdiv⟩ hset

end Rest

end Udp

end BitTorrent
