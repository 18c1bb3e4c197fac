import Mathlib.Data.Finset.Card
import Mathlib.Data.Finset.Max
import Mathlib.Order.WithBot

/-!
# A rotation over the missing elements of a linear order

What a round-robin picker is for: `pick` returns the least missing element
after the one it returned last, and starts over at the least missing element
when there is none. Elements stop being missing at any time (`own`).

The rotation is fair, and `ahead` is why. For a missing `x` it is the set of
missing elements the rotation meets before `x`; a pick that does not return
`x` returns one of them and removes it (`ahead_next`), and owning elements only
shrinks it (`ahead_mono`). So `x` comes up within `|ahead| + 1 ≤ |missing|`
picks (`mem_picked`), whatever is owned meanwhile, and without `own`s a sweep of
`|missing|` picks returns every missing element exactly once (`picked_sweep`).

Where someone starts to work on each element that a pick returns, the rotation
meets the elements nobody works on first (`IdleFirst`). When it returns one that
is being worked on already, there is none left (`IdleFirst.busy_of_next`).
-/

namespace BitTorrent.Sweep

variable {α : Type} [LinearOrder α]

/-- The missing elements, and the element returned last (`⊥` before the first
pick). -/
structure State (α : Type) where
  missing : Finset α
  last : WithBot α

/-- The two operations. -/
inductive Op (α : Type)
  | own (x : α)
  | pick

/-- The missing elements after the last one returned. -/
def later (s : State α) : Finset α := s.missing.filter fun y => s.last < (y : WithBot α)

/-- The element the next pick returns. -/
def next (s : State α) : Option α :=
  if h : (later s).Nonempty then some ((later s).min' h)
  else if h : s.missing.Nonempty then some (s.missing.min' h)
  else none

/-- One operation and what it returns. -/
def step (s : State α) : Op α → State α × Option α
  | .own x => ({ s with missing := s.missing.erase x }, none)
  | .pick =>
    match next s with
    | none => (s, none)
    | some y => ({ s with last := y }, some y)

/-- The state after a list of operations. -/
def after (s : State α) (ops : List (Op α)) : State α := ops.foldl (fun s o => (step s o).1) s

/-- What the picks among the operations return, in order. -/
def picked : State α → List (Op α) → List α
  | _, [] => []
  | s, o :: os => (step s o).2.toList ++ picked (step s o).1 os

/-- The number of picks among the operations. -/
def picks (ops : List (Op α)) : Nat :=
  ops.countP fun | .pick => true | .own _ => false

/-- The missing elements the rotation meets before `x`. -/
def ahead (s : State α) (x : α) : Finset α :=
  if s.last < (x : WithBot α) then s.missing.filter fun y => s.last < (y : WithBot α) ∧ y < x
  else s.missing.filter fun y => s.last < (y : WithBot α) ∨ y < x

/-! ## The next element -/

/-- What is picked is missing. -/
theorem next_mem {s : State α} {y : α} (h : next s = some y) : y ∈ s.missing := by
  unfold next at h
  split at h
  next hl =>
    rw [← Option.some.inj h]
    exact Finset.mem_of_mem_filter _ (Finset.min'_mem _ hl)
  next =>
    split at h
    next hm => rw [← Option.some.inj h]; exact Finset.min'_mem _ hm
    next => cases h

theorem next_isSome {s : State α} {x : α} (hx : x ∈ s.missing) : ∃ y, next s = some y := by
  unfold next
  split
  · exact ⟨_, rfl⟩
  · exact ⟨_, dif_pos ⟨x, hx⟩⟩

/-- The next element, characterised: the least missing one after the last, or
the least missing one when no missing element comes after the last. -/
theorem next_eq_some_iff {s : State α} {y : α} :
    next s = some y ↔ y ∈ s.missing ∧
      ((s.last < (y : WithBot α) ∧ ∀ z ∈ s.missing, s.last < (z : WithBot α) → y ≤ z) ∨
       ((∀ z ∈ s.missing, ¬ s.last < (z : WithBot α)) ∧ ∀ z ∈ s.missing, y ≤ z)) := by
  unfold next
  split
  next hl =>
    have hmem := Finset.mem_filter.mp (Finset.min'_mem _ hl)
    constructor
    · intro h
      obtain rfl := Option.some.inj h
      refine ⟨hmem.1, Or.inl ⟨hmem.2, fun z hz hlt => ?_⟩⟩
      exact Finset.min'_le _ _ (Finset.mem_filter.mpr ⟨hz, hlt⟩)
    · intro hp
      obtain ⟨hy, ⟨hlt, hle⟩ | ⟨hno, -⟩⟩ := hp
      · refine congrArg some (le_antisymm ?_ (hle _ hmem.1 hmem.2))
        exact Finset.min'_le _ _ (Finset.mem_filter.mpr ⟨hy, hlt⟩)
      · exact absurd hmem.2 (hno _ hmem.1)
  next hl =>
    have hno : ∀ z ∈ s.missing, ¬ s.last < (z : WithBot α) := fun z hz hlt =>
      hl ⟨z, Finset.mem_filter.mpr ⟨hz, hlt⟩⟩
    split
    next hm =>
      constructor
      · intro h
        obtain rfl := Option.some.inj h
        exact ⟨Finset.min'_mem _ hm, Or.inr ⟨hno, fun z hz => Finset.min'_le _ _ hz⟩⟩
      · intro hp
        obtain ⟨hy, ⟨hlt, -⟩ | ⟨-, hle⟩⟩ := hp
        · exact absurd hlt (hno y hy)
        · exact congrArg some (le_antisymm (Finset.min'_le _ _ hy) (hle _ (Finset.min'_mem _ hm)))
    next hm =>
      constructor
      · intro h
        cases h
      · intro h
        exact absurd ⟨y, h.1⟩ hm

/-! ## Fairness -/

theorem ahead_subset (s : State α) (x : α) : ahead s x ⊆ s.missing := by
  unfold ahead
  split <;> exact Finset.filter_subset _ _

theorem not_mem_ahead (s : State α) (x : α) : x ∉ ahead s x := by
  unfold ahead
  split
  next => simp
  next h => simp [h]

theorem card_ahead_lt {s : State α} {x : α} (hx : x ∈ s.missing) :
    (ahead s x).card < s.missing.card :=
  Finset.card_lt_card ⟨ahead_subset s x, fun h => not_mem_ahead s x (h hx)⟩

/-- Owning elements only shrinks what lies ahead. -/
theorem ahead_mono {s : State α} (z x : α) :
    ahead { s with missing := s.missing.erase z } x ⊆ ahead s x := by
  unfold ahead
  split <;> exact Finset.filter_subset_filter _ (Finset.erase_subset _ _)

/-- A pick that does not return `x` returns an element ahead of `x`, which is
no longer ahead afterwards. -/
theorem ahead_next {s : State α} {x y : α} (hx : x ∈ s.missing) (h : next s = some y)
    (hne : y ≠ x) : y ∈ ahead s x ∧ ahead { s with last := y } x ⊆ (ahead s x).erase y := by
  obtain ⟨hy, hcase⟩ := next_eq_some_iff.mp h
  have hsub : ∀ z, z ∈ ahead { s with last := (y : WithBot α) } x → z ∈ s.missing ∧ z ≠ y ∧
      (y < x ∧ y < z ∧ z < x ∨ x < y ∧ (y < z ∨ z < x)) := by
    intro z hz
    unfold ahead at hz
    simp only [WithBot.coe_lt_coe] at hz
    split at hz
    next hyx =>
      obtain ⟨hzm, hyz, hzx⟩ := Finset.mem_filter.mp hz
      exact ⟨hzm, hyz.ne', Or.inl ⟨hyx, hyz, hzx⟩⟩
    next hyx =>
      have hxy : x < y := lt_of_le_of_ne (not_lt.mp hyx) (Ne.symm hne)
      obtain ⟨hzm, hor⟩ := Finset.mem_filter.mp hz
      refine ⟨hzm, ?_, Or.inr ⟨hxy, hor⟩⟩
      rcases hor with hyz | hzx
      · exact hyz.ne'
      · exact (hzx.trans hxy).ne
  rcases hcase with ⟨hly, hmin⟩ | ⟨hno, hmin⟩
  · -- `y` is the least missing element after the last one returned
    by_cases hlx : s.last < (x : WithBot α)
    · have hyx : y < x := lt_of_le_of_ne (hmin x hx hlx) hne
      rw [ahead, if_pos hlx]
      refine ⟨Finset.mem_filter.mpr ⟨hy, hly, hyx⟩, fun z hz => ?_⟩
      obtain ⟨hzm, hzy, ⟨-, hyz, hzx⟩ | ⟨hxy, -⟩⟩ := hsub z hz
      · refine Finset.mem_erase.mpr ⟨hzy, Finset.mem_filter.mpr ⟨hzm, ?_, hzx⟩⟩
        exact hly.trans (WithBot.coe_lt_coe.mpr hyz)
      · exact absurd hyx hxy.asymm
    · rw [ahead, if_neg hlx]
      refine ⟨Finset.mem_filter.mpr ⟨hy, Or.inl hly⟩, fun z hz => ?_⟩
      obtain ⟨hzm, hzy, hz'⟩ := hsub z hz
      refine Finset.mem_erase.mpr ⟨hzy, Finset.mem_filter.mpr ⟨hzm, ?_⟩⟩
      rcases hz' with ⟨-, -, hzx⟩ | ⟨-, hyz | hzx⟩
      · exact Or.inr hzx
      · exact Or.inl (hly.trans (WithBot.coe_lt_coe.mpr hyz))
      · exact Or.inr hzx
  · -- the rotation starts over at `y`, the least missing element
    have hyx : y < x := lt_of_le_of_ne (hmin x hx) hne
    rw [ahead, if_neg (hno x hx)]
    refine ⟨Finset.mem_filter.mpr ⟨hy, Or.inr hyx⟩, fun z hz => ?_⟩
    obtain ⟨hzm, hzy, ⟨-, -, hzx⟩ | ⟨hxy, -⟩⟩ := hsub z hz
    · exact Finset.mem_erase.mpr ⟨hzy, Finset.mem_filter.mpr ⟨hzm, Or.inr hzx⟩⟩
    · exact absurd hyx hxy.asymm

/-- What a pick does: nothing when no element is missing, else it returns the
next one and remembers it. -/
theorem step_pick (s : State α) :
    (next s = none ∧ step s .pick = (s, none)) ∨
    ∃ y, next s = some y ∧ step s .pick = ({ s with last := (y : WithBot α) }, some y) := by
  cases h : next s with
  | none => exact Or.inl ⟨rfl, by simp only [step, h]⟩
  | some y => exact Or.inr ⟨y, rfl, by simp only [step, h]⟩

theorem step_missing_subset (s : State α) (o : Op α) :
    (step s o).1.missing ⊆ s.missing := by
  cases o with
  | own z => exact Finset.erase_subset _ _
  | pick => rcases step_pick s with ⟨-, h⟩ | ⟨y, -, h⟩ <;> rw [h]

theorem after_missing_subset (ops : List (Op α)) :
    ∀ s : State α, (after s ops).missing ⊆ s.missing := by
  induction ops with
  | nil => intro s; exact Finset.Subset.refl _
  | cons o os ih => intro s; exact (ih _).trans (step_missing_subset s o)

/-- **Fairness.** An element that is still missing after more picks than lie
ahead of it was returned by one of them. -/
theorem mem_picked {x : α} (ops : List (Op α)) :
    ∀ {s : State α}, x ∈ (after s ops).missing → (ahead s x).card < picks ops →
      x ∈ picked s ops := by
  induction ops with
  | nil => intro s _ h; exact absurd h (Nat.not_lt_zero _)
  | cons o os ih =>
    intro s hx hcard
    have hx' : x ∈ s.missing := after_missing_subset (o :: os) s hx
    cases o with
    | own z =>
      refine List.mem_append_right _ (ih hx (Nat.lt_of_le_of_lt ?_ hcard))
      exact Finset.card_le_card (ahead_mono z x)
    | pick =>
      obtain ⟨y', hy'⟩ := next_isSome hx'
      obtain ⟨hnone, -⟩ | ⟨y, hy, hstep⟩ := step_pick s
      · rw [hy'] at hnone; cases hnone
      show x ∈ (step s .pick).2.toList ++ picked (step s .pick).1 os
      have hx₁ : x ∈ (after (step s .pick).1 os).missing := hx
      rw [hstep] at hx₁ ⊢
      by_cases hne : y = x
      · exact List.mem_append_left _ (by simp [hne])
      · refine List.mem_append_right _ (ih hx₁ ?_)
        obtain ⟨hmem, hsub⟩ := ahead_next hx' hy hne
        have hle := Finset.card_le_card hsub
        rw [Finset.card_erase_of_mem hmem] at hle
        have hpos : 0 < (ahead s x).card := Finset.card_pos.mpr ⟨y, hmem⟩
        have hpk : picks (Op.pick :: os) = picks os + 1 := by simp [picks]
        show (ahead { s with last := (y : WithBot α) } x).card < picks os
        omega

/-- As many picks as there were missing elements reach every element that is
still missing after them. -/
theorem mem_picked_of_card_le {x : α} {s : State α} {ops : List (Op α)}
    (hx : x ∈ (after s ops).missing) (h : s.missing.card ≤ picks ops) : x ∈ picked s ops :=
  mem_picked ops hx (Nat.lt_of_lt_of_le (card_ahead_lt (after_missing_subset ops s hx)) h)

/-! ## One sweep -/

/-- What is picked was missing. -/
theorem picked_subset (ops : List (Op α)) :
    ∀ (s : State α), ∀ x ∈ picked s ops, x ∈ s.missing := by
  induction ops with
  | nil => intro s x hx; cases hx
  | cons o os ih =>
    intro s x hx
    rcases List.mem_append.mp hx with h | h
    · cases o with
      | own z => cases h
      | pick =>
        rcases step_pick s with ⟨-, hs⟩ | ⟨y, hy, hs⟩
        · rw [hs] at h; cases h
        · rw [hs] at h
          have hxy : x = y := by simpa using h
          exact hxy ▸ next_mem hy
    · exact step_missing_subset s o (ih _ x h)

/-- No more is picked than asked for. -/
theorem picked_length_le (ops : List (Op α)) :
    ∀ s : State α, (picked s ops).length ≤ picks ops := by
  induction ops with
  | nil => intro s; exact Nat.le_refl _
  | cons o os ih =>
    intro s
    have := ih (step s o).1
    cases o with
    | own z => simpa [picked, picks, step] using this
    | pick =>
      have hpk : picks (Op.pick :: os) = picks os + 1 := by simp [picks]
      rw [picked, List.length_append, hpk]
      have : ((step s .pick).2.toList).length ≤ 1 := by
        cases (step s .pick).2 <;> simp
      omega

omit [LinearOrder α] in
theorem picks_replicate (r : Nat) : picks (List.replicate r (Op.pick : Op α)) = r := by
  simp [picks, List.countP_replicate]

/-- Picking alone changes nothing. -/
theorem after_replicate_missing (r : Nat) (s : State α) :
    (after s (List.replicate r .pick)).missing = s.missing := by
  induction r generalizing s with
  | zero => rfl
  | succ r ih =>
    refine (ih _).trans ?_
    show (step s .pick).1.missing = s.missing
    rcases step_pick s with ⟨-, h⟩ | ⟨y, -, h⟩ <;> rw [h]

/-- **One sweep.** As many picks in a row as there are missing elements return
each of them exactly once. -/
theorem picked_sweep (s : State α) :
    (picked s (List.replicate s.missing.card .pick)).Nodup ∧
    ∀ x, x ∈ picked s (List.replicate s.missing.card .pick) ↔ x ∈ s.missing := by
  have hmem : ∀ x, x ∈ picked s (List.replicate s.missing.card .pick) ↔ x ∈ s.missing := by
    refine fun x => ⟨picked_subset _ s x, fun hx => ?_⟩
    refine mem_picked_of_card_le ?_ (picks_replicate _).ge
    rw [after_replicate_missing]
    exact hx
  refine ⟨?_, hmem⟩
  have hset : (picked s (List.replicate s.missing.card .pick)).toFinset = s.missing := by
    ext x; rw [List.mem_toFinset, hmem]
  have hle := picked_length_le (List.replicate s.missing.card .pick) s
  rw [picks_replicate] at hle
  have hcard := List.toFinset_card_le (picked s (List.replicate s.missing.card .pick))
  rw [hset] at hcard
  refine Multiset.coe_nodup.mp (Multiset.toFinset_card_eq_card_iff_nodup.mp ?_)
  exact (congrArg Finset.card hset).trans (Nat.le_antisymm hcard hle)

/-! ## Work in progress -/

/-- No `busy` element lies ahead of one that is not. -/
def IdleFirst (s : State α) (busy : Set α) : Prop :=
  ∀ x ∈ s.missing, x ∉ busy → ∀ y ∈ ahead s x, y ∉ busy

section Busy

variable {s : State α} {busy busy' : Set α}

/-- Only the missing elements matter. -/
theorem IdleFirst.congr (h : IdleFirst s busy) (heq : ∀ x ∈ s.missing, x ∈ busy' ↔ x ∈ busy) :
    IdleFirst s busy' := by
  intro x hx hidle y hy hbusy
  refine h x hx (fun hxb => hidle ((heq x hx).mpr hxb)) y hy ?_
  exact (heq y (ahead_subset s x hy)).mp hbusy

/-- The elements that the operation returns are busy from then on. -/
theorem IdleFirst.step (h : IdleFirst s busy) (o : Op α) :
    IdleFirst (step s o).1 (busy ∪ {x | (step s o).2 = some x}) := by
  cases o with
  | own z =>
    intro x hx hidle y hy hbusy
    rcases hbusy with hbusy | hnone
    · exact h x (Finset.mem_of_mem_erase hx) (fun hxb => hidle (Or.inl hxb)) y
        (ahead_mono z x hy) hbusy
    · cases hnone
  | pick =>
    rcases step_pick s with ⟨-, hs⟩ | ⟨z, hz, hs⟩
    · rw [hs]
      exact h.congr fun x _ => ⟨fun hx => hx.resolve_right (nomatch ·), Or.inl⟩
    · rw [hs]
      intro x hx hidle y hy hbusy
      have hx : x ∈ s.missing := hx
      have hne : z ≠ x := fun hzx => hidle (Or.inr (congrArg some hzx))
      obtain ⟨hyz, hya⟩ := Finset.mem_erase.mp ((ahead_next hx hz hne).2 hy)
      rcases hbusy with hbusy | hsome
      · exact h x hx (fun hxb => hidle (Or.inl hxb)) y hya hbusy
      · exact hyz (Option.some.inj hsome).symm

/-- **A repeated pick.** When the next element is busy, all that are missing are. -/
theorem IdleFirst.busy_of_next (h : IdleFirst s busy) {y : α} (hy : next s = some y)
    (hbusy : y ∈ busy) : ∀ x ∈ s.missing, x ∈ busy := by
  intro x hx
  by_contra hidle
  have hne : y ≠ x := fun hyx => hidle (hyx ▸ hbusy)
  exact h x hx hidle y (ahead_next hx hy hne).1 hbusy

end Busy

end BitTorrent.Sweep
