import BitTorrent.Tracker.Retries

/-!
# How often a tracker is asked, and for how long (`tracker/udp.rs`)

The timeouts that are left bound what a call of `announce` may still do
(`Phase.left`): every request uses some of them up, and so does every step of the
task itself, and a call brings 12 requests and 27 steps. So whatever the network
and the clock do, a run in which `announce` is called `c` times has at most
`1 + 12 * c` requests and `2 + 27 * c` steps of the task (`requests_bounded`).

Twelve are three attempts to announce, each with a request of its own and three for
the connection id, which it may have to renew. Requests and steps are counted by one
function with a switch (`Event.counted`), and one proof bounds both.

If the timers fire when they are due, a call ends after the 165 seconds that its
three timeouts make (`announce_within`). That the clock does not pass the deadline
of an attempt before its timer fires is a hypothesis there (`Prompt`): the runtime
promises no more than to fire it some time after. Whatever happens inside an attempt
does not matter then, since the nested `get_conn_id` ends with the attempt it is in.
-/

namespace BitTorrent

namespace Udp

/-- The steps of the task itself when `all`, its requests otherwise. -/
def Event.counted (all : Bool) : Event → Bool
  | .ask _ _ _ => true
  | .enter | .recv | .recvErr | .timeout | .attemptTimeout => all
  | .tick _ | .answer _ _ | .call _ => false

/-- A step of the task itself. -/
def Event.isOwn : Event → Bool := Event.counted true

/-- A request that is sent, or fails to be. -/
def Event.isAsk : Event → Bool := Event.counted false

/-- A call of `announce`. -/
def Event.isCall : Event → Bool
  | .call _ => true
  | _ => false

/-- What a request takes, with the wait for its answer when `all` steps count. -/
def exchange (all : Bool) : Nat := 1 + all.toNat

/-- What `n` attempts to announce take: each has one request of its own, and three
for the connection id. -/
def attempts (all : Bool) (n : Nat) : Nat := (4 * exchange all + all.toNat) * n

/-- What is left to the caller when it has its connection id. -/
def Caller.left (all : Bool) : Caller → Nat
  | .connect => 0
  | .announce a => exchange all + attempts all a.rest.length

/-- What the timeouts leave to the task. -/
def Phase.left (all : Bool) : Phase → Nat
  | .getConnId caller _ rest => exchange all * (1 + rest.length) + caller.left all
  | .awaitConnId caller _ rest _ _ => all.toNat + exchange all * rest.length + caller.left all
  | .sendAnnounce a => attempts all (1 + a.rest.length)
  | .request a => exchange all + attempts all a.rest.length
  | .awaitAnnounce a _ _ => all.toNat + attempts all a.rest.length
  | .idle | .returned _ | .refused | .panicked => 0

namespace Session

/-! ## What is left -/

section Left

variable {σ σ' : Session} {e : Event} {all : Bool}

/-- What the attempts that are left may cost. -/
theorem left_nextAttempt (now : Nat) (args : Announce) (rest : List Nat) :
    (nextAttempt now args rest).left all = attempts all rest.length := by
  cases rest with
  | nil => rfl
  | cons timeout rest =>
    show attempts all (1 + rest.length) = _
    rw [List.length_cons, Nat.add_comm]

/-- What the attempts for a connection id may cost, with what comes after them. -/
theorem left_nextConnId (now : Nat) (caller : Caller) (rest : List Nat) :
    (nextConnId now caller rest).left all ≤ exchange all * rest.length + caller.left all := by
  cases rest with
  | cons timeout rest =>
    refine Nat.le_of_eq ?_
    show exchange all * (1 + rest.length) + _ = _
    rw [List.length_cons, Nat.add_comm 1]
  | nil =>
    cases caller with
    | connect => exact Nat.zero_le _
    | announce a =>
      show (nextAttempt now a.args a.rest).left all ≤ _
      rw [left_nextAttempt]
      show _ ≤ exchange all * 0 + (exchange all + attempts all a.rest.length)
      omega

theorem left_afterConnId (caller : Caller) : (afterConnId caller).left all = caller.left all := by
  cases caller <;> rfl

/-- Entering an attempt uses up the step that enters it. -/
theorem left_enter (σ : Session) (a : Attempt) :
    all.toNat + (σ.enter a).left all ≤ attempts all (1 + a.rest.length) := by
  have hall : attempts all (1 + a.rest.length) =
      all.toNat + 4 * exchange all + attempts all a.rest.length := by
    unfold attempts
    rw [Nat.mul_add, Nat.mul_one, Nat.add_comm all.toNat]
  rw [hall]
  unfold enter
  split
  · rw [left_nextAttempt]
    omega
  · split
    · have hle := @left_nextConnId all σ.now (.announce a) retryTimeout
      change _ ≤ exchange all * 3 + (exchange all + attempts all a.rest.length) at hle
      omega
    · show all.toNat + (exchange all + attempts all a.rest.length) ≤ _
      omega

/-- What a call is given. -/
theorem left_call (now : Nat) (args : Announce) :
    (nextAttempt now args retryTimeout).left all = attempts all 3 := left_nextAttempt ..

theorem left_ask {m : TrackerM Unit} {await : Nat → Phase} {next : Phase} {n : Nat}
    (hawait : ∀ r, (await r).left all ≤ n) (hnext : next.left all ≤ n) :
    (σ.ask m await next).phase.left all ≤ n :=
  phase_ask (P := fun phase => phase.left all ≤ n) hawait hnext (Nat.zero_le _)

theorem left_reply {α : Type} {m : TrackerM α} {done : α → Phase} {next : Phase} {n : Nat}
    (hdone : ∀ a, (done a).left all ≤ n) (hnext : next.left all ≤ n) :
    (σ.reply m done next).phase.left all ≤ n :=
  phase_reply (P := fun phase => phase.left all ≤ n) hdone hnext (Nat.zero_le _)

/-- An attempt that is lost is a step of the task and no request. -/
theorem lost_counted (he : e = .recvErr ∨ e = .timeout) :
    (e.counted all).toNat = all.toNat := by
  rcases he with rfl | rfl <;> rfl

/-- Every step that counts uses something up, and only a call adds to what is
left. -/
theorem left_step (h : σ.step e = some σ') :
    (e.counted all).toNat + σ'.phase.left all ≤
      σ.phase.left all + attempts all 3 * e.isCall.toNat := by
  cases stepped_of_step h with
  | tick d => exact Nat.le_of_eq (Nat.zero_add _)
  | answer _ => exact Nat.le_of_eq (Nat.zero_add _)
  | turn hturn =>
    cases hturn with
    | call =>
      show 0 + (nextAttempt _ _ retryTimeout).left all ≤ _ + attempts all 3 * 1
      rw [left_call]
      omega
    | @enter a hphase =>
      have hleft : σ.phase.left all = attempts all (1 + a.rest.length) := by
        rw [hphase]
        rfl
      rw [hleft]
      exact left_enter σ a
    | @connIdLost _ caller _ _ rest _ he hphase =>
      have hleft : σ.phase.left all =
          all.toNat + exchange all * rest.length + caller.left all := by
        rw [hphase]
        rfl
      have hle := @left_nextConnId all σ.now caller rest
      rw [hleft, lost_counted he]
      dsimp only
      omega
    | @announceLost _ a _ _ he hphase =>
      have hleft : σ.phase.left all = all.toNat + attempts all a.rest.length := by
        rw [hphase]
        rfl
      rw [hleft, lost_counted he, left_nextAttempt]
      omega
    | @attemptLost a _ _ rest _ hphase =>
      have hleft : σ.phase.left all = all.toNat + exchange all * rest.length +
          (exchange all + attempts all a.rest.length) := by
        rw [hphase]
        rfl
      rw [hleft, left_nextAttempt]
      show all.toNat + _ ≤ _
      omega
  | @askConnId caller deadline rest txId grow sent hphase =>
    have hleft : σ.phase.left all = exchange all * (1 + rest.length) + caller.left all := by
      rw [hphase]
      rfl
    have hle := @left_nextConnId all σ.now caller rest
    have hask := @left_ask σ all (Udp.askConnId txId grow sent)
      (.awaitConnId caller deadline rest txId) (nextConnId σ.now caller rest)
      (all.toNat + exchange all * rest.length + caller.left all) (fun _ => Nat.le_refl _) (by omega)
    rw [hleft, Nat.mul_add, Nat.mul_one]
    show 1 + _ ≤ 1 + all.toNat + _ + _ + 0
    omega
  | @askAnnounce a txId grow sent hphase =>
    have hleft : σ.phase.left all = exchange all + attempts all a.rest.length := by
      rw [hphase]
      rfl
    have hask := @left_ask σ all (Udp.askAnnounce a.args txId grow sent) (.awaitAnnounce a txId)
      (nextAttempt σ.now a.args a.rest) (all.toNat + attempts all a.rest.length)
      (fun _ => Nat.le_refl _) (by rw [left_nextAttempt]; omega)
    rw [hleft]
    show 1 + _ ≤ 1 + all.toNat + _ + 0
    omega
  | @recvConnId q r deadline datagram inbox caller rest txId hinbox hphase =>
    have hleft : σ.phase.left all =
        all.toNat + exchange all * rest.length + caller.left all := by
      rw [hphase]
      rfl
    have hreply := @left_reply { σ with inbox } all Unit (connIdReply txId datagram σ.now)
      (fun () => afterConnId caller) (nextConnId σ.now caller rest)
      (exchange all * rest.length + caller.left all)
      (fun _ => by rw [left_afterConnId]; omega) (left_nextConnId ..)
    rw [hleft]
    show all.toNat + _ ≤ _ + 0
    omega
  | @recvAnnounce q r datagram inbox a txId hinbox hphase =>
    have hleft : σ.phase.left all = all.toNat + attempts all a.rest.length := by
      rw [hphase]
      rfl
    have hreply := @left_reply { σ with inbox } all _ (announceReply txId datagram σ.now)
      (fun res => .returned (.ok res)) (nextAttempt σ.now a.args a.rest)
      (attempts all a.rest.length) (fun _ => Nat.zero_le _) (Nat.le_of_eq (left_nextAttempt ..))
    rw [hleft]
    show all.toNat + _ ≤ _ + 0
    omega

/-- **Nobody asks for ever.** Over a whole run, whatever is answered and whichever
timers fire, there are at most twelve requests for each call of `announce` that
was made, and one for `connect`. The steps of the task itself are at most 27 for
each call, and two. -/
theorem requests_bounded (now : Nat) (peerPort : UInt16) (key : UInt32) (as : List Event)
    (σ : Session) (hrun : run step (new now peerPort key) as = some σ) :
    as.countP Event.isAsk ≤ 1 + 12 * as.countP Event.isCall ∧
    as.countP Event.isOwn ≤ 2 + 27 * as.countP Event.isCall := by
  have hcount : ∀ all, as.countP (Event.counted all) + σ.phase.left all ≤
      (new now peerPort key).phase.left all + attempts all 3 * as.countP Event.isCall := fun all =>
    run_countP_le (P := fun _ => True) (fun σ e σ' _ h => ⟨trivial, left_step h⟩) trivial hrun
  constructor
  · exact Nat.le_trans (Nat.le_add_right _ _) (hcount false)
  · exact Nat.le_trans (Nat.le_add_right _ _) (hcount true)

theorem requests_bounded_late : ∃ σ, run step (new 0 80 7) lateRun = some σ ∧
    lateRun.countP Event.isAsk ≤ 1 + 12 * lateRun.countP Event.isCall ∧
    lateRun.countP Event.isOwn ≤ 2 + 27 * lateRun.countP Event.isCall := by
  obtain ⟨σ, hrun⟩ := Option.isSome_iff_exists.mp
    (show (run step (new 0 80 7) lateRun).isSome = true by decide +kernel)
  exact ⟨σ, hrun, requests_bounded 0 80 7 lateRun σ hrun⟩

end Left

/-! ## How long a call takes -/

/-- The time that the next attempts may take. -/
def restTime : List Nat → Nat
  | [] => 0
  | timeout :: rest => secs timeout + restTime rest

/-- The attempt that the task is in ends in time for the ones behind it. -/
def Within (limit now : Nat) (phase : Phase) : Prop :=
  ∀ a, phase.attempt = some a → now ≤ a.deadline ∧ a.deadline + restTime a.rest ≤ limit

/-- The timer of an attempt fires when it is due, and `announce` is called once. -/
def Prompt (σ : Session) : Event → Prop
  | .tick d => ∀ a, σ.phase.attempt = some a → σ.now + d ≤ a.deadline
  | .call _ => False
  | _ => True

section Within

variable {σ σ' : Session} {e : Event} {limit now : Nat} {a : Attempt} {phase : Phase}

theorem Within.of_none (h : phase.attempt = none) : Within limit now phase := by
  intro a ha
  rw [h] at ha
  cases ha

/-- What the task does in the attempt. -/
theorem Within.same (h : now ≤ a.deadline ∧ a.deadline + restTime a.rest ≤ limit)
    (hphase : phase.attempt = some a) : Within limit now phase := by
  intro b hb
  rw [hphase] at hb
  rw [← Option.some.inj hb]
  exact h

/-- The next attempt is due in the time that is left. -/
theorem within_nextAttempt (args : Announce) {rest : List Nat} (h : now + restTime rest ≤ limit) :
    Within limit now (nextAttempt now args rest) := by
  cases rest with
  | nil => exact .of_none rfl
  | cons timeout rest =>
    have hrest : restTime (timeout :: rest) = secs timeout + restTime rest := rfl
    rw [hrest] at h
    refine .same (a := { args, deadline := now + secs timeout, rest }) ⟨?_, ?_⟩ rfl
    · exact Nat.le_add_right _ _
    · show now + secs timeout + restTime rest ≤ limit
      omega

/-- The attempt is over, in time. -/
theorem within_over (h : now ≤ a.deadline ∧ a.deadline + restTime a.rest ≤ limit) :
    Within limit now (nextAttempt now a.args a.rest) :=
  within_nextAttempt a.args (by omega)

/-- The attempts for a connection id stay inside the attempt they are for. -/
theorem within_nextConnId {caller : Caller} (rest : List Nat)
    (h : ∀ a, caller = .announce a → now ≤ a.deadline ∧ a.deadline + restTime a.rest ≤ limit) :
    Within limit now (nextConnId now caller rest) := by
  cases caller with
  | connect => cases rest <;> exact .of_none rfl
  | announce a =>
    cases rest with
    | nil => exact within_over (h a rfl)
    | cons timeout rest => exact .same (h a rfl) rfl

/-- An attempt begins in its time. -/
theorem within_enter (h : σ.now ≤ a.deadline ∧ a.deadline + restTime a.rest ≤ limit) :
    Within limit σ.now (σ.enter a) := by
  unfold enter
  split
  · exact within_over h
  · split
    · exact within_nextConnId retryTimeout fun b hb => by cases hb; exact h
    · exact .same h rfl

theorem within_afterConnId {caller : Caller}
    (h : ∀ a, caller = .announce a → now ≤ a.deadline ∧ a.deadline + restTime a.rest ≤ limit) :
    Within limit now (afterConnId caller) := by
  cases caller with
  | connect => exact .of_none rfl
  | announce a => exact .same (h a rfl) rfl

theorem within_awaitConnId {caller : Caller} {deadline r : Nat} {rest : List Nat} {txId : UInt32}
    (h : ∀ a, caller = .announce a → now ≤ a.deadline ∧ a.deadline + restTime a.rest ≤ limit) :
    Within limit now (.awaitConnId caller deadline rest txId r) := by
  cases caller with
  | connect => exact .of_none rfl
  | announce a => exact .same (h a rfl) rfl

theorem within_ask {m : TrackerM Unit} {await : Nat → Phase} {next : Phase}
    (hawait : ∀ r, Within limit σ.now (await r)) (hnext : Within limit σ.now next) :
    Within limit (σ.ask m await next).now (σ.ask m await next).phase := by
  rw [now_ask]
  exact phase_ask (P := Within limit σ.now) hawait hnext (.of_none rfl)

theorem within_reply {α : Type} {m : TrackerM α} {done : α → Phase} {next : Phase}
    (hdone : ∀ a, Within limit σ.now (done a)) (hnext : Within limit σ.now next) :
    Within limit (σ.reply m done next).now (σ.reply m done next).phase := by
  rw [now_reply]
  exact phase_reply (P := Within limit σ.now) hdone hnext (.of_none rfl)

/-- The caller of a connection id is in its attempt. -/
theorem Within.caller {caller : Caller} (h : Within limit now phase)
    (hphase : ∀ a, caller = .announce a → phase.attempt = some a) :
    ∀ a, caller = .announce a → now ≤ a.deadline ∧ a.deadline + restTime a.rest ≤ limit :=
  fun a ha => h a (hphase a ha)

/-- One step stays in the limit, if the timer of an attempt fires when it is due. -/
theorem within_step (hw : Within limit σ.now σ.phase) (hprompt : Prompt σ e)
    (h : σ.step e = some σ') : Within limit σ'.now σ'.phase := by
  cases stepped_of_step h with
  | tick d => exact fun a ha => ⟨hprompt a ha, (hw a ha).2⟩
  | answer => exact hw
  | turn hturn =>
    cases hturn with
    | call => exact hprompt.elim
    | enter hphase => exact within_enter (hw _ (by rw [hphase]; rfl))
    | @connIdLost _ caller _ _ rest _ _ hphase =>
      exact within_nextConnId rest (hw.caller fun a ha => by rw [hphase, ha]; rfl)
    | announceLost _ hphase => exact within_over (hw _ (by rw [hphase]; rfl))
    | attemptLost hphase => exact within_over (hw _ (by rw [hphase]; rfl))
  | @askConnId caller _ rest _ _ _ hphase =>
    have hcaller := @Within.caller limit σ.now σ.phase caller hw
      fun a ha => by rw [hphase, ha]; rfl
    exact within_ask (fun _ => within_awaitConnId hcaller) (within_nextConnId rest hcaller)
  | askAnnounce hphase =>
    have ha := hw _ (by rw [hphase]; rfl)
    exact within_ask (fun _ => .same ha rfl) (within_over ha)
  | @recvConnId _ _ _ _ _ caller rest _ _ hphase =>
    have hcaller := @Within.caller limit σ.now σ.phase caller hw
      fun a ha => by rw [hphase, ha]; rfl
    exact within_reply (fun _ => within_afterConnId hcaller) (within_nextConnId rest hcaller)
  | recvAnnounce _ hphase =>
    have ha := hw _ (by rw [hphase]; rfl)
    exact within_reply (fun _ => .of_none rfl) (within_over ha)

/-- **A call of `announce` takes at most 165 seconds**, when its timers fire in
time, whatever happens to its requests. -/
theorem announce_within (σ₀ σ : Session) (args : Announce) (as : List Event)
    (hcall : σ₀.step (.call args) = some σ) (hprompt : AllSteps step Prompt σ as) :
    AllStates step (fun σ' => σ'.phase.attempt ≠ none → σ'.now ≤ σ.now + secs 165) σ as := by
  have hnew : Within (σ.now + secs 165) σ.now σ.phase := by
    cases stepped_of_step hcall with
    | turn hturn =>
      cases hturn with
      | call =>
        have htotal : restTime retryTimeout = secs 165 := by decide
        show Within (σ₀.now + secs 165) σ₀.now (nextAttempt σ₀.now args retryTimeout)
        exact within_nextAttempt args (Nat.le_of_eq (congrArg _ htotal))
      | connIdLost he _ => rcases he with he | he <;> cases he
      | announceLost he _ => rcases he with he | he <;> cases he
  refine (allStates_of_invariant (fun _ _ _ hw hok hs => within_step hw hok hs)
    hnew hprompt).mono ?_
  intro σ' hw hbusy
  obtain ⟨a, ha⟩ := Option.ne_none_iff_exists'.mp hbusy
  have := hw a ha
  omega

instance (σ : Session) : ∀ e : Event, Decidable (Prompt σ e)
  | .tick d =>
    decidable_of_iff (∀ a ∈ σ.phase.attempt, σ.now + d ≤ a.deadline) Iff.rfl
  | .call _ => isFalse id
  | .answer _ _ | .enter | .ask _ _ _ | .recv | .recvErr | .timeout | .attemptTimeout =>
    isTrue trivial

/-- The tracker never answers. -/
theorem announce_within_silent :
    let σ₀ := (run step (new 0 80 7) (called.take 3)).getD (new 0 80 7)
    let σ := (σ₀.step (.call someAnnounce)).getD σ₀
    let as : List Event := [.enter, .ask 2 0 true, .tick (secs 15), .timeout, .enter,
      .ask 3 0 true, .tick (secs 45), .timeout]
    AllStates step (fun σ' => σ'.phase.attempt ≠ none → σ'.now ≤ σ.now + secs 165) σ as := by
  intro σ₀ σ as
  exact announce_within σ₀ σ someAnnounce as (by decide +kernel) (by decide +kernel)

end Within

end Session

end Udp

end BitTorrent
