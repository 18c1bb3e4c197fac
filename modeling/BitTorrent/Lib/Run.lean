import Mathlib.Logic.Basic

/-!
# Runs of a labelled step function

A machine is a partial step function `step : σ → α → Option σ`: the label
names the step a scheduler, a peer or a process takes, and `none` says that
the step cannot be taken in this state. A *run* is a list of labels.

The file packages each induction over runs once:

* `run_invariant` — what every step preserves holds after every run;
* `run_invariant_of` — the same for runs all of whose steps meet a condition
  `ok` on the state before the step and its label (`AllSteps`);
* `allStates_of_invariant`, `allSteps_of_invariant` — what then holds in all
  states and of all steps on the way, and `allSteps_of_allStates` back.

`traced` adds a history: the events of the steps taken so far, the most
recent first. It changes nothing of the run itself (`run_of_traced`).
-/

namespace BitTorrent

variable {σ α ε : Type}

/-- The state after the labels `as`, or `none` when one of the steps cannot be
taken. -/
def run (step : σ → α → Option σ) : σ → List α → Option σ
  | s, [] => some s
  | s, a :: as => (step s a).bind fun s' => run step s' as

/-- Every step of the run meets `ok`, a condition on the state before the step
and on its label. -/
def AllSteps (step : σ → α → Option σ) (ok : σ → α → Prop) : σ → List α → Prop
  | _, [] => True
  | s, a :: as => ok s a ∧ ∀ s', step s a = some s' → AllSteps step ok s' as

/-- `P` holds in the first state of the run and after each of its steps. -/
def AllStates (step : σ → α → Option σ) (P : σ → Prop) : σ → List α → Prop
  | s, [] => P s
  | s, a :: as => P s ∧ ∀ s', step s a = some s' → AllStates step P s' as

/-- `AllSteps` can be tested by taking the steps. -/
instance decidableAllSteps {step : σ → α → Option σ} {ok : σ → α → Prop}
    [∀ s a, Decidable (ok s a)] : ∀ s as, Decidable (AllSteps step ok s as)
  | _, [] => isTrue trivial
  | s, a :: as =>
    have : Decidable (∀ s', step s a = some s' → AllSteps step ok s' as) :=
      match step s a with
      | none => isTrue fun _ hs' => nomatch hs'
      | some s₁ =>
        have : Decidable (AllSteps step ok s₁ as) := decidableAllSteps s₁ as
        decidable_of_iff (AllSteps step ok s₁ as)
          ⟨fun h₁ _ hs' => Option.some.inj hs' ▸ h₁, fun h₁ => h₁ s₁ rfl⟩
    inferInstanceAs (Decidable (_ ∧ _))

/-- So can `AllStates`. -/
instance decidableAllStates {step : σ → α → Option σ} {P : σ → Prop}
    [∀ s, Decidable (P s)] : ∀ s as, Decidable (AllStates step P s as)
  | s, [] => inferInstanceAs (Decidable (P s))
  | s, a :: as =>
    have : Decidable (∀ s', step s a = some s' → AllStates step P s' as) :=
      match step s a with
      | none => isTrue fun _ hs' => nomatch hs'
      | some s₁ =>
        have : Decidable (AllStates step P s₁ as) := decidableAllStates s₁ as
        decidable_of_iff (AllStates step P s₁ as)
          ⟨fun h₁ _ hs' => Option.some.inj hs' ▸ h₁, fun h₁ => h₁ s₁ rfl⟩
    inferInstanceAs (Decidable (_ ∧ _))

section Run

variable {step : σ → α → Option σ} {ok : σ → α → Prop} {P : σ → Prop}

theorem run_cons {s s' : σ} {a : α} {as : List α} (h : run step s (a :: as) = some s') :
    ∃ s₁, step s a = some s₁ ∧ run step s₁ as = some s' :=
  Option.bind_eq_some_iff.mp h

/-- A run may be cut in two. -/
theorem run_append {as bs : List α} :
    ∀ {s s₁ : σ}, run step s as = some s₁ →
      run step s (as ++ bs) = run step s₁ bs := by
  induction as with
  | nil =>
    intro s s₁ h
    rw [show s = s₁ from Option.some.inj h]
    rfl
  | cons a as ih =>
    intro s s₁ h
    obtain ⟨s₂, h₁, h₂⟩ := run_cons h
    show (step s a).bind (fun s' => run step s' (as ++ bs)) = _
    rw [h₁]
    exact ih h₂

/-- What holds at the start and is preserved by every `ok` step holds at the
end of every run made of `ok` steps. -/
theorem run_invariant_of
    (hstep : ∀ s a s', P s → ok s a → step s a = some s' → P s') :
    ∀ {as : List α} {s s' : σ}, P s → AllSteps step ok s as →
      run step s as = some s' → P s' := by
  intro as
  induction as with
  | nil =>
    intro s s' h _ hr
    rw [← show s = s' from Option.some.inj hr]
    exact h
  | cons a as ih =>
    intro s s' h hok hr
    obtain ⟨s₁, h₁, h₂⟩ := run_cons hr
    exact ih (hstep s a s₁ h hok.1 h₁) (hok.2 s₁ h₁) h₂

theorem allSteps_true (s : σ) (as : List α) : AllSteps step (fun _ _ => True) s as := by
  induction as generalizing s with
  | nil => trivial
  | cons a as ih => exact ⟨trivial, fun s' _ => ih s'⟩

/-- A condition on labels alone. -/
theorem allSteps_of_forall {Q : α → Prop} :
    ∀ {as : List α} {s : σ}, (∀ a ∈ as, Q a) → AllSteps step (fun _ a => Q a) s as := by
  intro as
  induction as with
  | nil => intro s _; trivial
  | cons a as ih =>
    intro s h
    exact ⟨h a (List.mem_cons_self ..), fun s' _ => ih fun b hb => h b (List.mem_cons_of_mem _ hb)⟩

/-- Steps that meet two conditions. -/
theorem AllSteps.and {ok' : σ → α → Prop} :
    ∀ {as : List α} {s : σ}, AllSteps step ok s as → AllSteps step ok' s as →
      AllSteps step (fun s a => ok s a ∧ ok' s a) s as := by
  intro as
  induction as with
  | nil => intro s _ _; trivial
  | cons a as ih =>
    intro s h h'
    exact ⟨⟨h.1, h'.1⟩, fun s' hs' => ih (h.2 s' hs') (h'.2 s' hs')⟩

theorem AllSteps.mono {ok' : σ → α → Prop} (h : ∀ s a, ok s a → ok' s a) :
    ∀ {as : List α} {s : σ}, AllSteps step ok s as → AllSteps step ok' s as := by
  intro as
  induction as with
  | nil => intro s _; trivial
  | cons a as ih => intro s hs; exact ⟨h s a hs.1, fun s' hs' => ih (hs.2 s' hs')⟩

/-- What holds at the start and is preserved by every step holds at the end of
every run. -/
theorem run_invariant (hstep : ∀ s a s', P s → step s a = some s' → P s')
    {as : List α} {s s' : σ} (h : P s) (hr : run step s as = some s') : P s' :=
  run_invariant_of (fun s a s' hs _ => hstep s a s' hs) h (allSteps_true s as) hr

/-- The states of a run made of `ok` steps all satisfy what `ok` steps preserve. -/
theorem allStates_of_invariant
    (hstep : ∀ s a s', P s → ok s a → step s a = some s' → P s') :
    ∀ {as : List α} {s : σ}, P s → AllSteps step ok s as → AllStates step P s as := by
  intro as
  induction as with
  | nil => intro s h _; exact h
  | cons a as ih =>
    intro s h hok
    exact ⟨h, fun s' hs' => ih (hstep s a s' h hok.1 hs') (hok.2 s' hs')⟩

theorem AllStates.head {as : List α} {s : σ} (h : AllStates step P s as) : P s := by
  cases as with
  | nil => exact h
  | cons a as => exact h.1

/-- The steps of such a run all satisfy what holds wherever `P` and `ok` do. -/
theorem allSteps_of_invariant {Q : σ → α → Prop}
    (hstep : ∀ s a s', P s → ok s a → step s a = some s' → P s')
    (hQ : ∀ s a, P s → ok s a → Q s a) :
    ∀ {as : List α} {s : σ}, P s → AllSteps step ok s as → AllSteps step Q s as := by
  intro as
  induction as with
  | nil => intro s _ _; trivial
  | cons a as ih =>
    intro s h hok
    exact ⟨hQ s a h hok.1, fun s' hs' => ih (hstep s a s' h hok.1 hs') (hok.2 s' hs')⟩

/-- Conversely, when every step that is not `ok` leads out of `Q`, a run that
stays in `Q` is made of `ok` steps. `P` is what `ok` steps keep. -/
theorem allSteps_of_allStates {Q : σ → Prop}
    (hstep : ∀ s a s', P s → ok s a → step s a = some s' → P s')
    (hQ : ∀ s a, P s → Q s → (∀ s', step s a = some s' → Q s') → ok s a) :
    ∀ {as : List α} {s : σ}, P s → AllStates step Q s as → AllSteps step ok s as := by
  intro as
  induction as with
  | nil => intro s _ _; trivial
  | cons a as ih =>
    intro s h hall
    have hok := hQ s a h hall.1 fun s' hs' => (hall.2 s' hs').head
    exact ⟨hok, fun s' hs' => ih (hstep s a s' h hok hs') (hall.2 s' hs')⟩

/-- A potential pays for the labels that `p` counts; one that `q` counts may raise
it by `n`. -/
theorem run_countP_le {μ : σ → Nat} {p q : α → Bool} {n : Nat}
    (hstep : ∀ s a s', P s → step s a = some s' →
      P s' ∧ (p a).toNat + μ s' ≤ μ s + n * (q a).toNat) :
    ∀ {as : List α} {s s' : σ}, P s → run step s as = some s' →
      as.countP p + μ s' ≤ μ s + n * as.countP q := by
  have hcons : ∀ (r : α → Bool) (a : α) (as : List α),
      (a :: as).countP r = as.countP r + (r a).toNat := by
    intro r a as
    rw [List.countP_cons]
    cases r a <;> rfl
  intro as
  induction as with
  | nil =>
    intro s s' _ hr
    rw [← show s = s' from Option.some.inj hr]
    exact Nat.le_of_eq (Nat.zero_add _)
  | cons a as ih =>
    intro s s' h hr
    obtain ⟨s₁, h₁, h₂⟩ := run_cons hr
    obtain ⟨hP, hle⟩ := hstep s a s₁ h h₁
    have := ih hP h₂
    rw [hcons p, hcons q, Nat.mul_add]
    omega

/-- A potential that every step lowers bounds the length of a run. -/
theorem run_length_le {μ : σ → Nat}
    (hstep : ∀ s a s', P s → step s a = some s' → P s' ∧ μ s' < μ s)
    {as : List α} {s s' : σ} (h : P s) (hr : run step s as = some s') :
    as.length + μ s' ≤ μ s := by
  have hcount := run_countP_le (p := fun _ => true) (q := fun _ => false) (n := 0)
    (fun s a s' hs hstep' => by
      obtain ⟨hP, hlt⟩ := hstep s a s' hs hstep'
      refine ⟨hP, ?_⟩
      show 1 + μ s' ≤ μ s + 0
      omega) h hr
  rwa [List.countP_true, Nat.zero_mul] at hcount

theorem AllStates.mono {Q : σ → Prop} (hPQ : ∀ s, P s → Q s) :
    ∀ {as : List α} {s : σ}, AllStates step P s as → AllStates step Q s as := by
  intro as
  induction as with
  | nil => intro s h; exact hPQ s h
  | cons a as ih => intro s h; exact ⟨hPQ s h.1, fun s' hs' => ih (h.2 s' hs')⟩

end Run

/-! ## Histories -/

/-- The machine `step` with the history of its events, the most recent first.
`ev` reads the event of a step off the state before it and its label. -/
def traced (step : σ → α → Option σ) (ev : σ → α → Option ε) (p : σ × List ε) (a : α) :
    Option (σ × List ε) :=
  (step p.1 a).map fun s' => (s', (ev p.1 a).toList ++ p.2)

theorem traced_eq_some {step : σ → α → Option σ} {ev : σ → α → Option ε} {p p' : σ × List ε}
    {a : α} (h : traced step ev p a = some p') :
    step p.1 a = some p'.1 ∧ p'.2 = (ev p.1 a).toList ++ p.2 := by
  obtain ⟨s', hs', rfl⟩ := Option.map_eq_some_iff.mp h
  exact ⟨hs', rfl⟩

/-- Forgetting the history gives a run of the machine itself. -/
theorem run_of_traced {step : σ → α → Option σ} {ev : σ → α → Option ε} :
    ∀ {as : List α} {p p' : σ × List ε}, run (traced step ev) p as = some p' →
      run step p.1 as = some p'.1 := by
  intro as
  induction as with
  | nil => intro p p' h; rw [Option.some.inj h]; rfl
  | cons a as ih =>
    intro p p' h
    obtain ⟨p₁, h₁, h₂⟩ := run_cons h
    show (step p.1 a).bind _ = _
    rw [(traced_eq_some h₁).1]
    exact ih h₂

/-- Every run has a history. -/
theorem traced_of_run {step : σ → α → Option σ} {ev : σ → α → Option ε} :
    ∀ {as : List α} {s s' : σ} (h : List ε), run step s as = some s' →
      ∃ h', run (traced step ev) (s, h) as = some (s', h') := by
  intro as
  induction as with
  | nil => intro s s' h hr; exact ⟨h, by rw [Option.some.inj hr]; rfl⟩
  | cons a as ih =>
    intro s s' h hr
    obtain ⟨s₁, h₁, h₂⟩ := run_cons hr
    obtain ⟨h', hr'⟩ := ih ((ev s a).toList ++ h) h₂
    refine ⟨h', ?_⟩
    show (traced step ev (s, h) a).bind _ = _
    unfold traced
    rw [h₁]
    exact hr'

end BitTorrent
