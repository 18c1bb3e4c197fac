import BitTorrent.Download.Bitfield
import BitTorrent.Lib.Run
import Mathlib.Order.Bounds.Basic

/-!
# Sequences of calls on the shared bitfield

The downloaders call `set` and `pick_piece` on one bitfield in any order. Two
step functions describe such a sequence: `callStep` goes on with whatever a call
leaves behind, also when it panicked, and `returnStep` takes only calls that
return.

* `calls_inv`, `calls_owns` — along every sequence the invariant holds and the
  owned pieces are the ones passed to `set`;
* `calls_in_bounds_iff` — no call panics unless the pieces fill the last byte
  and every one of them gets set;
* `calls_refine` — the state reached is the abstract set of owned pieces, in
  each of its representations (bits, count, prefix pointer);
* `pick_finds` — in every such state `pick_piece` ends and finds a missing piece
  when there is one.

Both kinds of sequence occur. A task that panics inside a call drops its guard, and
the others go on with what the call has left. Indices are those of pieces of the
torrent, which is all that the downloaders pass.
-/

namespace BitTorrent

/-- A call on the bitfield. -/
inductive BitOp
  | set (i : Nat)
  | pick
  deriving DecidableEq, Repr

/-- The index passed to `set` is a piece index. -/
def BitOp.InRange (n : Nat) : BitOp → Prop
  | .set i => i < n
  | .pick => True

instance (n : Nat) : ∀ op : BitOp, Decidable (op.InRange n)
  | .set i => inferInstanceAs (Decidable (i < n))
  | .pick => isTrue trivial

namespace Bitfield

/-- The call, with the index it hands out. -/
def call (b : Bitfield) : BitOp → Bitfield × Exit (Option Nat)
  | .set i =>
    match b.set i with
    | (b', .returned ()) => (b', .returned none)
    | (b', .panicked) => (b', .panicked)
    | (b', .spinning) => (b', .spinning)
  | .pick => b.pickPiece

/-- The call panics on an index out of bounds. -/
def Panics (b : Bitfield) (op : BitOp) : Prop := (b.call op).2 = .panicked

instance (b : Bitfield) (op : BitOp) : Decidable (b.Panics op) :=
  inferInstanceAs (Decidable (_ = _))

/-- A call, whatever its exit. -/
def callStep (b : Bitfield) (op : BitOp) : Option Bitfield := some (b.call op).1

/-- A call that returns. -/
def returnStep (b : Bitfield) (op : BitOp) : Option Bitfield :=
  match b.call op with
  | (b', .returned _) => some b'
  | _ => none

/-- The indices passed to `set` are piece indices. -/
def InRange (n : Nat) (ops : List BitOp) : Prop := ∀ op ∈ ops, op.InRange n

instance (n : Nat) (ops : List BitOp) : Decidable (InRange n ops) :=
  inferInstanceAs (Decidable (∀ op ∈ ops, op.InRange n))

/-- The pieces passed to `set`. -/
def setPieces (n : Nat) (ops : List BitOp) : Finset Nat :=
  (Finset.range n).filter fun i => .set i ∈ ops

/-! ## One call -/

section Call

variable {n : Nat} {b : Bitfield}

/-- A call of `set` is `set`. -/
theorem call_set (b : Bitfield) (i : Nat) : (b.call (.set i)).1 = (b.set i).1 := by
  simp only [call]
  split
  next heq => rw [heq]
  next heq => rw [heq]
  next heq => rw [heq]

/-- A call of `set` panics when `set` does. -/
theorem panics_set (b : Bitfield) (i : Nat) : b.Panics (.set i) ↔ (b.set i).2 = .panicked := by
  simp only [Panics, call]
  split
  next heq => simp [heq]
  next heq => simp [heq]
  next heq => simp [heq]

theorem inv_call (h : Inv n b) (hn : n < 2 ^ 32) {op : BitOp} (hop : op.InRange n) :
    Inv n (b.call op).1 := by
  cases op with
  | set i => rw [call_set]; exact inv_set h hn hop
  | pick => exact inv_pickPiece h hn

/-- A call owns what it sets. -/
theorem owns_call (h : Inv n b) (hn : n < 2 ^ 32) {op : BitOp} (hop : op.InRange n)
    (j : Nat) : (b.call op).1.Owns j ↔ b.Owns j ∨ op = .set j := by
  cases op with
  | set i =>
    rw [call_set, owns_set h hn hop]
    exact or_congr_right ⟨fun h => h ▸ rfl, fun h => (BitOp.set.inj h).symm⟩
  | pick =>
    rw [show b.call .pick = b.pickPiece from rfl, owns_pickPiece h hn]
    exact ⟨Or.inl, fun h => h.resolve_right (nomatch ·)⟩

theorem not_panics_pick (h : Inv n b) (hn : n < 2 ^ 32) : ¬ b.Panics .pick := by
  unfold Panics
  rw [show b.call .pick = b.pickPiece from rfl]
  rcases pickPiece_spec h hn with ⟨-, heq⟩ | ⟨m, -, -, -, heq⟩ <;> rw [heq] <;> exact (nomatch ·)

theorem callStep_of_returnStep {b b' : Bitfield} {op : BitOp} (h : returnStep b op = some b') :
    callStep b op = some b' := by
  unfold returnStep at h
  split at h
  next heq => unfold callStep; rw [heq]; exact h
  next => cases h

end Call

/-! ## Sequences of calls -/

section Calls

variable {n : Nat}

theorem InRange.head {op : BitOp} {ops : List BitOp} (h : InRange n (op :: ops)) :
    op.InRange n :=
  h op (List.mem_cons_self ..)

theorem InRange.tail {op : BitOp} {ops : List BitOp} (h : InRange n (op :: ops)) :
    InRange n ops :=
  fun o ho => h o (List.mem_cons_of_mem _ ho)

/-- Any number of calls keep the invariant, also those that panic. -/
theorem calls_inv (hn : n < 2 ^ 32) {ops : List BitOp} :
    ∀ {b b' : Bitfield}, InRange n ops → Inv n b → run callStep b ops = some b' → Inv n b' := by
  induction ops with
  | nil => intro b b' _ h hr; exact Option.some.inj hr ▸ h
  | cons op ops ih =>
    intro b b' hops h hr
    obtain ⟨b₁, h₁, h₂⟩ := run_cons hr
    exact ih hops.tail (Option.some.inj h₁ ▸ inv_call h hn hops.head) h₂

/-- After any number of calls, the pieces owned are those that were set. -/
theorem calls_owns (hn : n < 2 ^ 32) {ops : List BitOp} :
    ∀ {b b' : Bitfield}, InRange n ops → Inv n b → run callStep b ops = some b' →
      ∀ j, b'.Owns j ↔ b.Owns j ∨ .set j ∈ ops := by
  induction ops with
  | nil =>
    intro b b' _ _ hr j
    rw [Option.some.inj hr]
    exact ⟨Or.inl, fun h => h.resolve_right List.not_mem_nil⟩
  | cons op ops ih =>
    intro b b' hops h hr j
    obtain ⟨b₁, h₁, h₂⟩ := run_cons hr
    obtain rfl := Option.some.inj h₁
    rw [ih hops.tail (inv_call h hn hops.head) h₂, owns_call h hn hops.head, or_assoc,
      List.mem_cons, eq_comm]

/-- Calls that return are calls. -/
theorem run_callStep_of_returnStep {ops : List BitOp} :
    ∀ {b b' : Bitfield}, run returnStep b ops = some b' → run callStep b ops = some b' := by
  induction ops with
  | nil => intro b b' h; exact h
  | cons op ops ih =>
    intro b b' h
    obtain ⟨b₁, h₁, h₂⟩ := run_cons h
    show (callStep b op).bind _ = _
    rw [callStep_of_returnStep h₁]
    exact ih h₂

/-- A piece that is never set stays missing, and keeps every call in bounds. -/
theorem in_bounds_of_missing (hn : n < 2 ^ 32) {i : Nat} (hi : i < n) {ops : List BitOp} :
    ∀ {b : Bitfield}, InRange n ops → Inv n b → ¬ b.Owns i → .set i ∉ ops →
      AllSteps callStep (fun b op => ¬ b.Panics op) b ops := by
  induction ops with
  | nil => intro b _ _ _ _; trivial
  | cons op ops ih =>
    intro b hops h hun hnot
    have hop : op ≠ .set i := fun he => hnot (he ▸ List.mem_cons_self ..)
    refine ⟨?_, fun b' hb' => ?_⟩
    · cases op with
      | set j =>
        rw [panics_set, set_panics_iff h hn hops.head]
        intro hp
        obtain ⟨-, -, hall⟩ := hp
        exact hun (hall i hi fun he => hop (he ▸ rfl))
      | pick => exact not_panics_pick h hn
    · obtain rfl := Option.some.inj hb'
      refine ih hops.tail (inv_call h hn hops.head) ?_ fun hm => hnot (List.mem_cons_of_mem _ hm)
      rw [owns_call h hn hops.head]
      exact fun ho => ho.elim hun hop

/-- Padding, or having no piece to set at all, keeps every call in bounds. -/
theorem in_bounds_of_padding (hn : n < 2 ^ 32) (h8 : n = 0 ∨ n % 8 ≠ 0) {ops : List BitOp} :
    ∀ {b : Bitfield}, InRange n ops → Inv n b →
      AllSteps callStep (fun b op => ¬ b.Panics op) b ops := by
  induction ops with
  | nil => intro b _ _; trivial
  | cons op ops ih =>
    intro b hops h
    refine ⟨?_, fun b' hb' => ih hops.tail (Option.some.inj hb' ▸ inv_call h hn hops.head)⟩
    cases op with
    | set j =>
      rw [panics_set, set_panics_iff h hn hops.head]
      have hj : j < n := hops.head
      exact fun hp => h8.elim (by omega) fun h8 => h8 hp.1
    | pick => exact not_panics_pick h hn

/-- Without padding, calls that do not panic leave some piece missing. -/
theorem missing_of_in_bounds (hn : n < 2 ^ 32) (h8 : n % 8 = 0) {ops : List BitOp} :
    ∀ {b : Bitfield}, InRange n ops → Inv n b → (∃ i, i < n ∧ ¬ b.Owns i) →
      AllSteps callStep (fun b op => ¬ b.Panics op) b ops →
      ∃ i, i < n ∧ ¬ b.Owns i ∧ .set i ∉ ops := by
  induction ops with
  | nil =>
    intro b _ _ hmissing _
    obtain ⟨i, hi, hun⟩ := hmissing
    exact ⟨i, hi, hun, List.not_mem_nil⟩
  | cons op ops ih =>
    intro b hops h hq hyp
    obtain ⟨i, hi, hun⟩ := hq
    obtain ⟨hp, hrest⟩ := hyp
    have hmiss : ∃ k, k < n ∧ ¬ (b.call op).1.Owns k := by
      by_contra hall
      have hall' : ∀ k, k < n → b.Owns k ∨ op = .set k := fun k hk => by
        by_contra hno
        exact hall ⟨k, hk, fun ho => hno ((owns_call h hn hops.head k).mp ho)⟩
      have hop : op = .set i := (hall' i hi).resolve_left hun
      subst hop
      refine hp ((panics_set b i).mpr ((set_panics_iff h hn hi).mpr ⟨h8, hun, ?_⟩))
      intro k hk hne
      exact (hall' k hk).resolve_right fun he => hne (BitOp.set.inj he).symm
    obtain ⟨k, hk, hunk, hnot⟩ := ih hops.tail (inv_call h hn hops.head) hmiss (hrest _ rfl)
    rw [owns_call h hn hops.head] at hunk
    refine ⟨k, hk, fun ho => hunk (Or.inl ho), fun hm => ?_⟩
    rcases List.mem_cons.mp hm with he | hm
    · exact hunk (Or.inr he.symm)
    · exact hnot hm

/-- **Index safety, exactly.** From the empty bitfield of `n` pieces no call
indexes out of bounds if and only if there is padding (or no piece at all), or
some piece is never set: the advance loop of `set` has no bound of its own. -/
theorem calls_in_bounds_iff (n : Nat) (ops : List BitOp) (hn : n < 2 ^ 32) (hops : InRange n ops) :
    AllSteps callStep (fun b op => ¬ b.Panics op) (zero n) ops ↔
      n = 0 ∨ n % 8 ≠ 0 ∨ ∃ i, i < n ∧ .set i ∉ ops := by
  constructor
  · intro h
    by_cases h0 : n = 0
    · exact Or.inl h0
    by_cases h8 : n % 8 = 0
    · obtain ⟨i, hi, -, hnot⟩ := missing_of_in_bounds hn h8 hops (inv_zero n)
        ⟨0, Nat.pos_of_ne_zero h0, zero_owns n 0⟩ h
      exact Or.inr (Or.inr ⟨i, hi, hnot⟩)
    · exact Or.inr (Or.inl h8)
  · intro hcases
    rcases hcases with h0 | h8 | ⟨i, hi, hnot⟩
    · exact in_bounds_of_padding hn (Or.inl h0) hops (inv_zero n)
    · exact in_bounds_of_padding hn (Or.inr h8) hops (inv_zero n)
    · exact in_bounds_of_missing hn hi hops (inv_zero n) (zero_owns n i) hnot

/-- Eight pieces fill their byte: setting the last of them reads bit 8. -/
theorem eighth_piece_out_of_bounds :
    InRange 8 ((List.range 8).map .set) ∧
    ¬ AllSteps callStep (fun b op => ¬ b.Panics op) (zero 8) ((List.range 8).map .set) := by
  decide

theorem calls_in_bounds_nine :
    AllSteps callStep (fun b op => ¬ b.Panics op) (zero 9) ((List.range 9).map .set) :=
  (calls_in_bounds_iff 9 _ (by decide) (by decide)).mpr (Or.inr (Or.inl (by decide)))

/-- **Refinement.** In every state reached by calls that return, the bits, the
count, the prefix pointer and the cursor all describe the set of pieces passed
to `set`. -/
theorem calls_refine (n : Nat) (ops : List BitOp) (b : Bitfield) (hn : n < 2 ^ 32)
    (hops : InRange n ops) (hrun : run returnStep (zero n) ops = some b) :
    (∀ i, i < n → b.has i = some (decide (i ∈ setPieces n ops))) ∧
    (∀ i, n ≤ i → i < 8 * b.pieceOwnership.length → b.has i = some false) ∧
    (setPieces n ops).card ≤ n ∧
    (∀ p, b.remaining p = some (n - (setPieces n ops).card)) ∧
    IsLeast {i | i ∉ setPieces n ops} b.confirmed ∧
    (0 < n → b.cur < n) := by
  have hcall := run_callStep_of_returnStep hrun
  have hinv : Inv n b := calls_inv hn hops (inv_zero n) hcall
  have howns : ∀ i, b.Owns i ↔ i ∈ setPieces n ops := by
    intro i
    rw [calls_owns hn hops (inv_zero n) hcall, setPieces, Finset.mem_filter, Finset.mem_range]
    exact ⟨fun h => have hm := h.resolve_left (zero_owns n i); ⟨hops _ hm, hm⟩, fun h => Or.inr h.2⟩
  have hcard : b.missing.card + (setPieces n ops).card = n := by
    have hset : setPieces n ops = (Finset.range n).filter fun i => b.Owns i := by
      ext i
      rw [Finset.mem_filter, Finset.mem_range, howns]
      exact ⟨fun h => ⟨hinv.lt_of_owns ((howns i).mpr h), h⟩, fun h => h.2⟩
    rw [hset, ← hinv.ones_eq]
    exact hinv.card_missing
  refine ⟨fun i hi => ?_, fun i hi hlt => ?_, by omega, fun p => ?_, ?_, hinv.cur_lt⟩
  · rw [hinv.has_eq hi]
    exact congrArg some (decide_eq_decide.mpr (howns i))
  · rw [has_eq_some hlt, decide_eq_false (hinv.padding i hi)]
  · rw [hinv.remaining_eq hn]
    congr 1
    omega
  · refine ⟨fun h => hinv.unowned ((howns _).mpr h), fun i hi => ?_⟩
    exact hinv.confirmed_le_of_not_owns fun ho => hi ((howns i).mp ho)

theorem calls_refine_three :
    (setPieces 3 [.set 1, .pick, .set 0, .set 1]).card ≤ 3 ∧
    IsLeast {i | i ∉ setPieces 3 [.set 1, .pick, .set 0, .set 1]} 2 := by
  have h := calls_refine 3 [.set 1, .pick, .set 0, .set 1] ⟨[0b11000000], 3, 1, 2⟩ (by decide)
    (by decide) (by decide)
  exact ⟨h.2.2.1, h.2.2.2.2.1⟩

/-- **The picker is correct and terminates.** In every state reached by calls
of `set` and `pick_piece`, whatever their exits, the loop of `pick_piece` ends
within `2 n + 1` rounds. It returns `None` exactly when every piece is owned and
otherwise a piece that is not, and it touches neither the bits nor `confirmed`. -/
theorem pick_finds (n : Nat) (ops : List BitOp) (b : Bitfield) (hn : n < 2 ^ 32)
    (hops : InRange n ops) (hrun : run callStep (zero n) ops = some b) :
    (∀ rounds, 2 * n + 1 ≤ rounds → pickLoop rounds b = b.pickPiece) ∧
    ∃ r, b.pickPiece.2 = .returned r ∧
      (r = none ↔ ∀ i, i < n → b.has i = some true) ∧
      (∀ i, r = some i → i < n ∧ b.has i = some false) ∧
      b.pickPiece.1.pieceOwnership = b.pieceOwnership ∧
      b.pickPiece.1.confirmed = b.confirmed := by
  have hinv : Inv n b := calls_inv hn hops (inv_zero n) hrun
  have htrue : ∀ i, i < n → (b.has i = some true ↔ b.Owns i) := by
    intro i hi
    rw [hinv.has_eq hi, Option.some.injEq, decide_eq_true_iff]
  refine ⟨fun rounds => pickLoop_of_le hinv hn, ?_⟩
  rcases pickPiece_spec hinv hn with ⟨hall, heq⟩ | ⟨m, hm, hun, -, heq⟩
  · rw [heq]
    refine ⟨none, rfl, ⟨fun _ i hi => (htrue i hi).mpr (hall i hi), fun _ => rfl⟩, ?_, rfl, rfl⟩
    intro i hi
    cases hi
  · rw [heq]
    refine ⟨some m, rfl, ⟨fun h => absurd h (Option.some_ne_none m), fun hall => ?_⟩, ?_, rfl, rfl⟩
    · exact absurd ((htrue m hm).mp (hall m hm)) hun
    · intro i hi
      obtain rfl := Option.some.inj hi
      exact ⟨hm, by rw [hinv.has_eq hm, decide_eq_false hun]⟩

/-- The last `set` of eight pieces panics; the state it leaves is full. -/
theorem pick_finds_eight : ∃ r, (pickPiece ⟨[255], 8, 0, 8⟩).2 = .returned r ∧
    (r = none ↔ ∀ i, i < 8 → has ⟨[255], 8, 0, 8⟩ i = some true) :=
  have h := pick_finds 8 ((List.range 8).map .set) ⟨[255], 8, 0, 8⟩ (by decide) (by decide)
    (by decide)
  h.2.imp fun _ hr => ⟨hr.1, hr.2.1⟩

end Calls

end Bitfield

end BitTorrent
