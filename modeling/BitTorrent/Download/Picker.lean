import BitTorrent.Download.Calls
import BitTorrent.Lib.Sweep

/-!
# The piece picker is a fair rotation

`Sweep` is what `pick_piece` is for: a rotation over the missing pieces. The
bitfield refines it, although its cursor wraps to `confirmed` rather than to
`0`, `confirmed` moves under it, and owned pieces are skipped inside the loop
(`Rotates`, `rotates_call`). Whatever is between the cursor and the piece
returned is owned, so only the missing pieces on either side of the cursor
matter, and after a wrap all of them are on one side.

* `picks_sweep` — with `r` pieces missing, `r` picks in a row return each of
  them once;
* `picks_fair` — with any `set`s in between, a piece still missing after `r`
  picks was returned by one of them.

The fairness itself is proved of the abstract rotation, over any linear order. What
has to be shown of the code is one call at a time: `pick_piece` returns what the
rotation returns, and both stand at the same place afterwards. A `set` that panics
is a call, too, since it has set its bit by then.
-/

namespace BitTorrent

namespace Bitfield

/-- The indices the picks among the calls hand out, in order. -/
def offered : Bitfield → List BitOp → List Nat
  | _, [] => []
  | b, op :: ops =>
    (match (b.call op).2 with
      | .returned i => i.toList
      | _ => []) ++ offered (b.call op).1 ops

/-- The number of calls of `pick_piece`. -/
def pickCalls (ops : List BitOp) : Nat := ops.count .pick

/-- What a call is for the rotation. -/
def sweepOp : BitOp → Sweep.Op Nat
  | .set i => .own i
  | .pick => .pick

/-- The bitfield stands where the rotation stands: the same pieces are missing,
and the missing pieces from the cursor on are those after the piece returned
last. After a wrap they are all of them on the one side and none on the other. -/
structure Rotates (n : Nat) (b : Bitfield) (s : Sweep.State Nat) : Prop where
  inv : Inv n b
  missing : s.missing = b.missing
  cursor : (∀ y ∈ s.missing, b.cur ≤ y ↔ s.last < WithBot.some y) ∨
    ((∀ y ∈ s.missing, b.cur ≤ y) ∧ ∀ y ∈ s.missing, ¬ s.last < WithBot.some y)

section Rotates

variable {n : Nat} {b : Bitfield} {s : Sweep.State Nat}

/-- A rotation that stands where the bitfield stands. -/
theorem rotates_of_inv (h : Inv n b) :
    Rotates n b ⟨b.missing, if b.cur = 0 then ⊥ else WithBot.some (b.cur - 1)⟩ where
  inv := h
  missing := rfl
  cursor := Or.inl fun y _ => by
    show b.cur ≤ y ↔ (if b.cur = 0 then ⊥ else WithBot.some (b.cur - 1)) < _
    split
    next h0 => simp [h0]
    next h0 => rw [WithBot.coe_lt_coe]; omega

/-- The piece `pick_piece` returns is the rotation's next one. -/
theorem Rotates.next_eq (h : Rotates n b s) {m : Nat} (hm : m < n) (hun : ¬ b.Owns m)
    (hcase : (b.cur ≤ m ∧ ∀ j, b.cur ≤ j → j < m → b.Owns j) ∨
      (m = b.confirmed ∧ ∀ j, b.cur ≤ j → j < n → b.Owns j)) : Sweep.next s = some m := by
  have hmem : ∀ y, y ∈ s.missing ↔ y < n ∧ ¬ b.Owns y := fun y => by
    rw [h.missing, mem_missing h.inv]
  refine Sweep.next_eq_some_iff.mpr ⟨(hmem m).mpr ⟨hm, hun⟩, ?_⟩
  have hfirst : ∀ {z}, z ∈ s.missing → b.cur ≤ z → (b.cur ≤ m ∧ m ≤ z) := by
    intro z hz hcz
    obtain ⟨hzn, hzun⟩ := (hmem z).mp hz
    rcases hcase with ⟨hcm, hall⟩ | ⟨-, hall⟩
    · refine ⟨hcm, ?_⟩
      by_contra hlt
      exact hzun (hall z hcz (by omega))
    · exact absurd (hall z hcz hzn) hzun
  rcases h.cursor with hcur | ⟨hafter, hno⟩
  · by_cases hcm : b.cur ≤ m
    · exact Or.inl ⟨(hcur m ((hmem m).mpr ⟨hm, hun⟩)).mp hcm, fun z hz hlt =>
        (hfirst hz ((hcur z hz).mpr hlt)).2⟩
    · -- no missing piece from the cursor on: the loop wrapped to `confirmed`
      have hconf := hcase.resolve_left fun hc => hcm hc.1
      refine Or.inr ⟨fun z hz hlt => hcm (hfirst hz ((hcur z hz).mpr hlt)).1, fun z hz => ?_⟩
      rw [hconf.1]
      exact h.inv.confirmed_le_of_not_owns ((hmem z).mp hz).2
  · exact Or.inr ⟨hno, fun z hz => (hfirst hz (hafter z hz)).2⟩

/-- After a pick the cursor stands behind the piece returned, or has wrapped to
the least missing piece when that piece was the last of all. -/
theorem Rotates.cursor_nextCur (h : Rotates n b s) (m : Nat) :
    (∀ y ∈ s.missing, nextCur b m ≤ y ↔ WithBot.some m < WithBot.some y) ∨
    ((∀ y ∈ s.missing, nextCur b m ≤ y) ∧
      ∀ y ∈ s.missing, ¬ WithBot.some m < WithBot.some y) := by
  have hmem : ∀ y, y ∈ s.missing → y < n ∧ ¬ b.Owns y := fun y hy =>
    (mem_missing h.inv).mp (h.missing ▸ hy)
  by_cases hlast : m + 1 = b.totalPieces
  · rw [nextCur, if_pos hlast]
    rw [h.inv.total] at hlast
    refine Or.inr ⟨fun y hy => h.inv.confirmed_le_of_not_owns (hmem y hy).2, fun y hy => ?_⟩
    rw [WithBot.coe_lt_coe]
    have := (hmem y hy).1
    omega
  · rw [nextCur, if_neg hlast]
    exact Or.inl fun y _ => by rw [WithBot.coe_lt_coe]; omega

/-- **Refinement.** Every call is a step of the rotation and hands out what the
rotation hands out. -/
theorem rotates_call (h : Rotates n b s) (hn : n < 2 ^ 32) {op : BitOp} (hop : op.InRange n) :
    Rotates n (b.call op).1 (Sweep.step s (sweepOp op)).1 ∧
    (match (b.call op).2 with
      | .returned i => i.toList
      | _ => []) = (Sweep.step s (sweepOp op)).2.toList := by
  cases op with
  | set i =>
    have hi : i < n := hop
    have hinv : Inv n (b.call (.set i)).1 := inv_call h.inv hn hop
    have hmiss : s.missing.erase i = (b.call (.set i)).1.missing := by
      ext y
      rw [Finset.mem_erase, h.missing, mem_missing h.inv, mem_missing hinv,
        owns_call h.inv hn hop, BitOp.set.injEq, not_or, and_comm, and_assoc, ne_comm]
    refine ⟨⟨hinv, hmiss, ?_⟩, ?_⟩
    · show (∀ y ∈ s.missing.erase i, (b.call (.set i)).1.cur ≤ y ↔ _) ∨ _
      rw [call_set, cur_set h.inv hn hi]
      rcases h.cursor with hc | ⟨hc, hno⟩
      · exact Or.inl fun y hy => hc y (Finset.mem_of_mem_erase hy)
      · exact Or.inr ⟨fun y hy => hc y (Finset.mem_of_mem_erase hy),
          fun y hy => hno y (Finset.mem_of_mem_erase hy)⟩
    · show _ = []
      simp only [call]
      split <;> next heq => split at heq <;> simp_all
  | pick =>
    show Rotates n b.pickPiece.1 (Sweep.step s .pick).1 ∧ _
    rw [show b.call .pick = b.pickPiece from rfl]
    rcases pickPiece_spec h.inv hn with ⟨hall, heq⟩ | ⟨m, hm, hun, hcase, heq⟩
    · have hnone : Sweep.step s .pick = (s, none) := by
        rcases Sweep.step_pick s with ⟨-, hs⟩ | ⟨y, hy, -⟩
        · exact hs
        · have hy := Sweep.next_mem hy
          rw [h.missing, mem_missing h.inv] at hy
          exact absurd (hall y hy.1) hy.2
      rw [heq, show sweepOp .pick = .pick from rfl, hnone]
      exact ⟨h, rfl⟩
    · have hsome : Sweep.step s .pick = ({ s with last := WithBot.some m }, some m) := by
        simp only [Sweep.step, h.next_eq hm hun hcase]
      rw [heq, show sweepOp .pick = .pick from rfl, hsome]
      have hlt := Nat.lt_of_le_of_lt (h.inv.confirmed_le_of_not_owns hun) hm
      exact ⟨⟨h.inv.setCur (h.inv.nextCur_lt hlt hm), h.missing, h.cursor_nextCur m⟩, rfl⟩

/-- The picks of a sequence of calls are the picks of the rotation. -/
theorem offered_eq (hn : n < 2 ^ 32) (ops : List BitOp) :
    ∀ {b : Bitfield} {s : Sweep.State Nat}, Rotates n b s → InRange n ops →
      offered b ops = Sweep.picked s (ops.map sweepOp) ∧
      ∀ b', run callStep b ops = some b' → b'.missing =
        (Sweep.after s (ops.map sweepOp)).missing := by
  induction ops with
  | nil =>
    intro b s h _
    exact ⟨rfl, fun b' hb' => by rw [← Option.some.inj hb']; exact h.missing.symm⟩
  | cons op ops ih =>
    intro b s h hops
    obtain ⟨h₁, hout⟩ := rotates_call h hn hops.head
    obtain ⟨hoff, hmiss⟩ := ih h₁ hops.tail
    refine ⟨?_, fun b' hb' => ?_⟩
    · rw [offered, hout, hoff]
      rfl
    · obtain ⟨b₁, hb₁, hrest⟩ := run_cons hb'
      exact hmiss b' (Option.some.inj hb₁ ▸ hrest)

end Rotates

/-- The calls of `pick_piece` are the looks of the sweep. -/
theorem picks_map_sweepOp (ops : List BitOp) : Sweep.picks (ops.map sweepOp) = pickCalls ops := by
  induction ops with
  | nil => rfl
  | cons op ops ih =>
    unfold Sweep.picks pickCalls at *
    cases op <;> simp [sweepOp, ih]

/-- **The picker is fair.** From every state reachable from the empty bitfield
with `r` missing pieces, `r` picks in a row return each missing piece exactly
once, and whatever is set in between, a piece that is still missing after `r`
picks was returned by one of them. -/
theorem picks_fair (n : Nat) (ops : List BitOp) (b : Bitfield) (hn : n < 2 ^ 32)
    (hops : InRange n ops) (hrun : run callStep (zero n) ops = some b) :
    ((offered b (List.replicate b.missing.card .pick)).Nodup ∧
      ∀ x, x ∈ offered b (List.replicate b.missing.card .pick) ↔ x < n ∧ ¬ b.Owns x) ∧
    ∀ (ops' : List BitOp) (b' : Bitfield), InRange n ops' → b.missing.card ≤ pickCalls ops' →
      run callStep b ops' = some b' →
      ∀ x, x < n → ¬ b'.Owns x → x ∈ offered b ops' := by
  have hinv : Inv n b := calls_inv hn hops (inv_zero n) hrun
  have hrot := rotates_of_inv hinv
  constructor
  · have hrange : InRange n (List.replicate b.missing.card .pick) := fun op hop => by
      rw [List.eq_of_mem_replicate hop]
      trivial
    rw [(offered_eq hn _ hrot hrange).1, List.map_replicate]
    obtain ⟨hnodup, hmem⟩ := Sweep.picked_sweep
      ⟨b.missing, if b.cur = 0 then ⊥ else WithBot.some (b.cur - 1)⟩
    exact ⟨hnodup, fun x => (hmem x).trans (mem_missing hinv)⟩
  · intro ops' b' hops' hcard hrun' x hx hun
    obtain ⟨hoff, hmiss⟩ := offered_eq hn ops' hrot hops'
    rw [hoff]
    refine Sweep.mem_picked_of_card_le ?_ (by rw [picks_map_sweepOp]; exact hcard)
    rw [← hmiss b' hrun']
    exact (mem_missing (calls_inv hn hops' hinv hrun')).mpr ⟨hx, hun⟩

/-- Three of four pieces missing, the cursor past one of them. -/
theorem picks_fair_four :
    (offered ⟨[0b00100000], 4, 2, 0⟩ (List.replicate 3 .pick)).Nodup ∧
    1 ∈ offered ⟨[0b00100000], 4, 2, 0⟩ [.pick, .set 0, .pick, .pick] := by
  have h := picks_fair 4 [.pick, .pick, .set 2] ⟨[0b00100000], 4, 2, 0⟩ (by decide) (by decide)
    (by decide)
  exact ⟨h.1.1, h.2 [.pick, .set 0, .pick, .pick] ⟨[0b10100000], 4, 1, 1⟩ (by decide) (by decide)
    (by decide) 1 (by decide) (by decide)⟩

end Bitfield

end BitTorrent
