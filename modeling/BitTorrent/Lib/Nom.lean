import Mathlib.Data.List.TakeWhile
import BitTorrent.Lib.Numerals

/-!
# Parser combinators on a complete input, as nom's

A parser reads a value off the front of its input and returns what is left, or
an error that names the input it gave up on. There is one kind of error here:
nothing is cut, and a complete input is never incomplete. So `alt` goes on to
the next parser after any error, and `foldMany0` ends at the first one and
forgets it.

`Sound` and `Complete` compare a parser with a language, a relation between
texts and the values they stand for. Every combinator has its rule: the
language of `pair` is `Concat`, that of `foldMany0` is `Star`, each applied to
the languages of the parsers it is built from.

Mirroring notes:

* the combinators work over any alphabet. Only the parsers of digits and numbers
  are about bytes;
* the error of `alt` is the last one's, as `or` of `nom::error::Error` has it, and
  an error has an input and a kind and no other context;
* `foldMany0` gives up (`many0`) when its parser succeeds without consuming
  anything. That is also why it terminates, whatever the parser;
* `fold_many0` makes its initial value by a function, and here it is a value.
-/

namespace BitTorrent.Nom

variable {τ α β γ ε : Type}

/-- `nom::error::ErrorKind`, as far as it is used. -/
inductive ErrorKind
  | alt
  | char
  | digit
  | mapRes
  | eof
  | many0
  deriving DecidableEq, Repr

/-- `nom::error::Error`. -/
structure Error (τ : Type) where
  input : List τ
  code : ErrorKind
  deriving DecidableEq, Repr

/-- `nom::IResult`: what is left of the input, and what was read. -/
abbrev IResult (τ α : Type) := Except (Error τ) (List τ × α)

/-- A parser of `nom`. -/
abbrev Parser (τ α : Type) := List τ → IResult τ α

/-! ## The combinators -/

/-- `combinator::map`. -/
def map (f : Parser τ α) (g : α → β) : Parser τ β := fun input =>
  match f input with
  | .ok (input, a) => .ok (input, g a)
  | .error e => .error e

/-- `combinator::map_res`. The error is at the start of the input. -/
def mapRes (f : Parser τ α) (g : α → Except ε β) : Parser τ β := fun input =>
  match f input with
  | .ok (rest, a) =>
    match g a with
    | .ok b => .ok (rest, b)
    | .error _ => .error ⟨input, .mapRes⟩
  | .error e => .error e

/-- `sequence::pair`. -/
def pair (f : Parser τ α) (g : Parser τ β) : Parser τ (α × β) := fun input =>
  match f input with
  | .ok (input, a) =>
    match g input with
    | .ok (input, b) => .ok (input, (a, b))
    | .error e => .error e
  | .error e => .error e

/-- `sequence::terminated`. -/
def terminated (f : Parser τ α) (g : Parser τ β) : Parser τ α := map (pair f g) Prod.fst

/-- `sequence::delimited`. -/
def delimited (f : Parser τ α) (g : Parser τ β) (h : Parser τ γ) : Parser τ β :=
  map (pair f (terminated g h)) Prod.snd

/-- The first parser that succeeds; the error is the last one's. -/
def alt : List (Parser τ α) → Parser τ α
  | [], input => .error ⟨input, .alt⟩
  | [f], input => f input
  | f :: f' :: fs, input =>
    match f input with
    | .ok r => .ok r
    | .error _ => alt (f' :: fs) input

/-- `character::complete::char`. -/
def char [DecidableEq τ] (c : τ) : Parser τ τ
  | [] => .error ⟨[], .char⟩
  | t :: input => if t = c then .ok (input, c) else .error ⟨t :: input, .char⟩

/-- `bytes::complete::take`. -/
def take (n : Nat) : Parser τ (List τ) := fun input =>
  if n ≤ input.length then .ok (input.drop n, input.take n) else .error ⟨input, .eof⟩

/-- The longest run of digits, at least one. -/
def digit1 : Parser UInt8 (List UInt8) := fun input =>
  let ds := input.takeWhile (IsDigit ·)
  if ds = [] then .error ⟨input, .digit⟩ else .ok (input.dropWhile (IsDigit ·), ds)

/-- The text that may be a signed number: a sign and all the digits that follow. -/
def signed : List UInt8 → List UInt8 × List UInt8
  | [] => ([], [])
  | c :: cs =>
    if c = plus ∨ c = minus then (c :: cs.takeWhile (IsDigit ·), cs.dropWhile (IsDigit ·))
    else ((c :: cs).takeWhile (IsDigit ·), (c :: cs).dropWhile (IsDigit ·))

/-- `character::complete::i64`. -/
def i64 : Parser UInt8 Int := fun input =>
  match parseI64 (signed input).1 with
  | .ok n => .ok ((signed input).2, n)
  | .error _ => .error ⟨input, .digit⟩

/-- Apply `f` until it fails. A parser that succeeds must consume something. -/
@[semireducible] def foldMany0 (f : Parser τ α) (init : β) (g : β → α → β) : Parser τ β :=
  fun input =>
    match f input with
    | .ok (rest, a) =>
      if _h : rest.length < input.length then foldMany0 f (g init a) g rest
      else .error ⟨input, .many0⟩
    | .error _ => .ok (input, init)
termination_by input => input.length

/-- `many0` pushes what it reads onto a vector. -/
def many0 (f : Parser τ α) : Parser τ (List α) := foldMany0 f [] fun acc a => acc ++ [a]

/-! ## Languages -/

/-- A language: the texts and the values they stand for. -/
abbrev Lang (τ α : Type) := List τ → α → Prop

/-- A text of `K`, then one of `L`. -/
inductive Concat (K : Lang τ α) (L : Lang τ β) : Lang τ (α × β)
  | mk {p q : List τ} {a : α} {b : β} (ha : K p a) (hb : L q b) : Concat K L (p ++ q) (a, b)

/-- Texts of `L`, one after the other. -/
inductive Star (L : Lang τ α) : Lang τ (List α)
  | nil : Star L [] []
  | cons {p q : List τ} {a : α} {as : List α} (ha : L p a) (has : Star L q as) :
      Star L (p ++ q) (a :: as)

/-- What `f` reads is a text of `L`. -/
structure Sound (L : Lang τ α) (f : Parser τ α) : Prop where
  split : ∀ {input rest : List τ} {a : α}, f input = .ok (rest, a) → ∃ p, input = p ++ rest ∧ L p a

/-- `f` reads the texts of `L` that are at most `n` long, whatever follows them. -/
structure Complete (n : Nat) (L : Lang τ α) (f : Parser τ α) : Prop where
  reads : ∀ {p : List τ} {a : α}, L p a → p.length ≤ n → ∀ s, f (p ++ s) = .ok (s, a)

/-- `f` gives up. -/
def Fails (f : Parser τ α) (input : List τ) : Prop := ∃ e, f input = .error e

section Rules

variable {f : Parser τ α} {input rest : List τ} {a : α}

theorem fails_iff : Fails f input ↔ ∀ rest a, f input ≠ .ok (rest, a) := by
  unfold Fails
  cases h : f input with
  | ok r => exact iff_of_false (fun ⟨_, he⟩ => by cases he) fun hr => hr r.1 r.2 rfl
  | error e => exact iff_of_true ⟨e, rfl⟩ fun _ _ hr => by cases hr

/-- What `map` returns. -/
theorem map_eq_ok {g : α → β} {b : β} :
    map f g input = .ok (rest, b) ↔ ∃ a, f input = .ok (rest, a) ∧ g a = b := by
  unfold map
  cases f input with
  | error e => exact iff_of_false (fun h => by cases h) fun ⟨_, h, _⟩ => by cases h
  | ok r =>
    obtain ⟨r, a⟩ := r
    constructor
    · intro hr
      cases hr
      exact ⟨a, rfl, rfl⟩
    · intro ⟨a', hr, hb⟩
      cases hr
      rw [← hb]

/-- What `map_res` returns. -/
theorem mapRes_eq_ok {g : α → Except ε β} {b : β} :
    mapRes f g input = .ok (rest, b) ↔ ∃ a, f input = .ok (rest, a) ∧ g a = .ok b := by
  unfold mapRes
  cases f input with
  | error e => exact iff_of_false (fun h => by cases h) fun ⟨_, h, _⟩ => by cases h
  | ok r =>
    obtain ⟨r, a⟩ := r
    constructor
    · intro h
      dsimp only at h
      cases hg : g a with
      | error e =>
        rw [hg] at h
        cases h
      | ok b' =>
        rw [hg] at h
        cases h
        exact ⟨a, rfl, hg⟩
    · intro ⟨a', hr, hb⟩
      cases hr
      dsimp only
      rw [hb]

/-- What `pair` returns. -/
theorem pair_eq_ok {g : Parser τ β} {b : β} :
    pair f g input = .ok (rest, (a, b)) ↔
      ∃ mid, f input = .ok (mid, a) ∧ g mid = .ok (rest, b) := by
  unfold pair
  cases f input with
  | error e => exact iff_of_false (fun h => by cases h) fun ⟨_, h, _⟩ => by cases h
  | ok r =>
    obtain ⟨mid, a'⟩ := r
    constructor
    · intro h
      dsimp only at h
      cases hg : g mid with
      | error e =>
        rw [hg] at h
        cases h
      | ok r =>
        rw [hg] at h
        cases h
        exact ⟨mid, rfl, hg⟩
    · intro ⟨mid', hr, hb⟩
      cases hr
      dsimp only
      rw [hb]

theorem pair_fails_left {g : Parser τ β} (h : Fails f input) : Fails (pair f g) input := by
  obtain ⟨e, he⟩ := h
  unfold Fails pair
  rw [he]
  exact ⟨e, rfl⟩

/-- `pair` fails with the second of its parsers. -/
theorem pair_fails_right {g : Parser τ β} {mid : List τ} (hf : f input = .ok (mid, a))
    (h : Fails g mid) : Fails (pair f g) input := by
  obtain ⟨e, he⟩ := h
  unfold Fails pair
  rw [hf]
  dsimp only
  rw [he]
  exact ⟨e, rfl⟩

/-- What `terminated` returns. -/
theorem terminated_eq_ok {g : Parser τ β} : terminated f g input = .ok (rest, a) ↔
    ∃ mid b, f input = .ok (mid, a) ∧ g mid = .ok (rest, b) := by
  unfold terminated
  rw [map_eq_ok]
  constructor
  · intro hp
    obtain ⟨⟨a', b⟩, h, rfl⟩ := hp
    obtain ⟨mid, hf, hg⟩ := pair_eq_ok.mp h
    exact ⟨mid, b, hf, hg⟩
  · intro ⟨mid, b, hf, hg⟩
    exact ⟨(a, b), pair_eq_ok.mpr ⟨mid, hf, hg⟩, rfl⟩

/-- What `delimited` returns. -/
theorem delimited_eq_ok {g : Parser τ β} {h : Parser τ γ} {b : β} :
    delimited f g h input = .ok (rest, b) ↔
      ∃ mid mid' a c, f input = .ok (mid, a) ∧ g mid = .ok (mid', b) ∧ h mid' = .ok (rest, c) := by
  unfold delimited
  rw [map_eq_ok]
  constructor
  · intro hq
    obtain ⟨⟨a, b'⟩, hp, rfl⟩ := hq
    obtain ⟨mid, hf, ht⟩ := pair_eq_ok.mp hp
    obtain ⟨mid', c, hg, hh⟩ := terminated_eq_ok.mp ht
    exact ⟨mid, mid', a, c, hf, hg, hh⟩
  · intro ⟨mid, mid', a, c, hf, hg, hh⟩
    exact ⟨(a, b), pair_eq_ok.mpr ⟨mid, hf, terminated_eq_ok.mpr ⟨mid', c, hg, hh⟩⟩, rfl⟩

/-- A later alternative is tried only where the earlier ones fail. -/
theorem alt_eq_ok {fs : List (Parser τ α)} (hfs : fs ≠ []) :
    alt (f :: fs) input = .ok (rest, a) ↔
      f input = .ok (rest, a) ∨ Fails f input ∧ alt fs input = .ok (rest, a) := by
  cases fs with
  | nil => exact absurd rfl hfs
  | cons f' fs =>
    simp only [alt]
    cases h : f input with
    | ok r =>
      refine ⟨Or.inl, fun hr => hr.resolve_right fun hr => ?_⟩
      obtain ⟨⟨e, he⟩, -⟩ := hr
      rw [h] at he
      cases he
    | error e =>
      refine ⟨fun hr => Or.inr ⟨⟨e, h⟩, hr⟩, fun hr => hr.elim (fun hr => ?_) And.right⟩
      cases hr

theorem alt_congr {fs fs' : List (Parser τ α)}
    (h : List.Forall₂ (fun f f' => f input = f' input) fs fs') : alt fs input = alt fs' input := by
  induction h with
  | nil => rfl
  | cons hf hfs ih =>
    cases hfs with
    | nil => exact hf
    | cons =>
      simp only [alt]
      rw [hf, ih]

theorem map_congr {f' : Parser τ α} {g : α → β} (h : f input = f' input) :
    map f g input = map f' g input := by
  unfold map
  rw [h]

theorem pair_congr {g g' : Parser τ β}
    (h : ∀ {mid a}, f input = .ok (mid, a) → g mid = g' mid) :
    pair f g input = pair f g' input := by
  unfold pair
  cases hf : f input with
  | error e => rfl
  | ok r =>
    dsimp only
    rw [h hf]

theorem delimited_congr {g g' : Parser τ β} {h : Parser τ γ}
    (hg : ∀ {mid a}, f input = .ok (mid, a) → g mid = g' mid) :
    delimited f g h input = delimited f g' h input :=
  map_congr (pair_congr fun hf => map_congr (by unfold pair; rw [hg hf]))

/-- What `char` takes. -/
theorem char_eq_ok [DecidableEq τ] {c t : τ} :
    char c input = .ok (rest, t) ↔ input = c :: rest ∧ t = c := by
  cases input with
  | nil => exact iff_of_false (fun h => by cases h) fun h => by cases h.1
  | cons t' input =>
    simp only [char]
    by_cases ht : t' = c
    · rw [if_pos ht, ht]
      constructor
      · intro h
        cases h
        exact ⟨rfl, rfl⟩
      · intro hp
        obtain ⟨h, rfl⟩ := hp
        cases h
        rfl
    · rw [if_neg ht]
      exact iff_of_false (fun h => by cases h) fun h => ht (List.cons.inj h.1).1

/-- What `take` takes. -/
theorem take_eq_ok {n : Nat} {ts : List τ} :
    take n input = .ok (rest, ts) ↔ input = ts ++ rest ∧ ts.length = n := by
  unfold take
  constructor
  · intro h
    split at h
    · cases h
      exact ⟨(List.take_append_drop n input).symm, List.length_take_of_le ‹_›⟩
    · cases h
  · intro hp
    obtain ⟨rfl, rfl⟩ := hp
    rw [if_pos (by simp), List.drop_left, List.take_left]

/-- Where the longest run ends is decided by what is in it and by what follows. -/
theorem span_eq {p : τ → Bool} {ts run : List τ} :
    ts.takeWhile p = run ∧ ts.dropWhile p = rest ↔
      ts = run ++ rest ∧ (∀ t ∈ run, p t) ∧ ∀ t ∈ rest.head?, ¬ p t := by
  constructor
  · intro hp
    obtain ⟨rfl, rfl⟩ := hp
    refine ⟨(List.takeWhile_append_dropWhile).symm, fun t ht => List.mem_takeWhile_imp ht, ?_⟩
    intro t ht
    have h := List.head?_dropWhile_not p ts
    rw [Option.mem_def.mp ht] at h
    simpa using h
  · intro hp
    obtain ⟨rfl, hrun, hrest⟩ := hp
    rw [List.takeWhile_append_of_pos hrun, List.dropWhile_append_of_pos hrun]
    cases rest with
    | nil => exact ⟨List.append_nil run, rfl⟩
    | cons t rest =>
      have ht : p t = false := Bool.eq_false_iff.mpr (hrest t rfl)
      rw [List.takeWhile_cons_of_neg (hrest t rfl), List.dropWhile_cons_of_neg (hrest t rfl)]
      exact ⟨List.append_nil run, rfl⟩

section Digits

variable {input rest ds : List UInt8} {n : Int}

theorem digits_span :
    input.takeWhile (IsDigit ·) = ds ∧ input.dropWhile (IsDigit ·) = rest ↔
      input = ds ++ rest ∧ (∀ c ∈ ds, IsDigit c) ∧ ∀ c ∈ rest.head?, ¬ IsDigit c := by
  simp only [span_eq, decide_eq_true_iff]

/-- What `digit1` takes. -/
theorem digit1_eq_ok :
    digit1 input = .ok (rest, ds) ↔
      input = ds ++ rest ∧ (ds ≠ [] ∧ ∀ c ∈ ds, IsDigit c) ∧ ∀ c ∈ rest.head?, ¬ IsDigit c := by
  unfold digit1
  dsimp only
  constructor
  · intro h
    split at h
    · cases h
    · cases h
      obtain ⟨h₁, h₂, h₃⟩ := digits_span.mp ⟨rfl, rfl⟩
      exact ⟨h₁, ⟨‹_›, h₂⟩, h₃⟩
  · intro ⟨h₁, ⟨hne, h₂⟩, h₃⟩
    obtain ⟨hrun, hrest⟩ := digits_span.mpr ⟨h₁, h₂, h₃⟩
    rw [hrun, hrest, if_neg hne]

/-- A sign and the digits, split off the input. -/
theorem signed_append :
    input = (signed input).1 ++ (signed input).2 ∧ ∀ c ∈ (signed input).2.head?, ¬ IsDigit c := by
  cases input with
  | nil => exact ⟨rfl, fun c hc => by cases hc⟩
  | cons c cs =>
    simp only [signed]
    split
    · obtain ⟨h₁, -, h₃⟩ := (@digits_span cs _ _).mp ⟨rfl, rfl⟩
      exact ⟨congrArg (c :: ·) h₁, h₃⟩
    · obtain ⟨h₁, -, h₃⟩ := (@digits_span (c :: cs) _ _).mp ⟨rfl, rfl⟩
      exact ⟨h₁, h₃⟩

/-- A signed number is split off where it ends. -/
theorem signed_eq (h : SignedDigits ds n) (hrest : ∀ c ∈ rest.head?, ¬ IsDigit c) :
    signed (ds ++ rest) = (ds, rest) := by
  cases h with
  | unsigned h =>
    cases ds with
    | nil => exact absurd rfl h.ne_nil
    | cons c cs =>
      obtain ⟨hp, hm⟩ := not_sign_of_isDigit h.head
      obtain ⟨h₁, h₂⟩ := digits_span.mpr ⟨rfl, h.digit, hrest⟩
      show signed (c :: (cs ++ rest)) = _
      simp only [signed]
      rw [if_neg (not_or.mpr ⟨hp, hm⟩), ← List.cons_append, h₁, h₂]
  | plus h =>
    obtain ⟨h₁, h₂⟩ := digits_span.mpr ⟨rfl, h.digit, hrest⟩
    show signed (plus :: (_ ++ rest)) = _
    simp only [signed]
    rw [if_pos (Or.inl trivial), h₁, h₂]
  | minus h =>
    obtain ⟨h₁, h₂⟩ := digits_span.mpr ⟨rfl, h.digit, hrest⟩
    show signed (minus :: (_ ++ rest)) = _
    simp only [signed]
    rw [if_pos (Or.inr trivial), h₁, h₂]

/-- The numeral is read as far as its digits go. -/
theorem i64_eq_ok :
    i64 input = .ok (rest, n) ↔
      (∃ ds, input = ds ++ rest ∧ SignedDigits ds n) ∧ (-2 ^ 63 ≤ n ∧ n < 2 ^ 63) ∧
        ∀ c ∈ rest.head?, ¬ IsDigit c := by
  unfold i64
  constructor
  · intro h
    cases hp : parseI64 (signed input).1 with
    | error e =>
      rw [hp] at h
      cases h
    | ok m =>
      rw [hp] at h
      cases h
      obtain ⟨hds, hrange⟩ := parseI64_eq_ok.mp hp
      obtain ⟨hin, hrest⟩ := @signed_append input
      exact ⟨⟨_, hin, hds⟩, hrange, hrest⟩
  · intro hq
    obtain ⟨⟨ds, rfl, hds⟩, hrange, hrest⟩ := hq
    rw [signed_eq hds hrest, parseI64_eq_ok.mpr ⟨hds, hrange⟩]

end Digits

/-! ## Repetition -/

theorem foldMany0_next {init : β} {g : β → α → β} (h : f input = .ok (rest, a))
    (hlt : rest.length < input.length) :
    foldMany0 f init g input = foldMany0 f (g init a) g rest := by
  rw [foldMany0, h]
  exact dif_pos hlt

theorem foldMany0_stop {init : β} {g : β → α → β} (h : Fails f input) :
    foldMany0 f init g input = .ok (input, init) := by
  obtain ⟨e, h⟩ := h
  rw [foldMany0, h]

theorem foldl_push (as acc : List α) : as.foldl (fun acc a => acc ++ [a]) acc = acc ++ as := by
  induction as generalizing acc with
  | nil => exact (List.append_nil acc).symm
  | cons a as ih => rw [List.foldl_cons, ih, List.append_assoc, List.singleton_append]

/-- The repetition looks at what follows it only through `f`. -/
theorem foldMany0_congr {f' : Parser τ α} {g : β → α → β} {n : Nat}
    (h : ∀ input, input.length ≤ n → f input = f' input) (init : β) :
    ∀ input, input.length ≤ n → foldMany0 f init g input = foldMany0 f' init g input := by
  intro input
  induction hlen : input.length using Nat.strongRecOn generalizing init input with
  | ind m ih =>
    subst hlen
    intro hn
    rw [foldMany0, foldMany0, h input hn]
    cases f' input with
    | error e => rfl
    | ok r =>
      obtain ⟨rest, a⟩ := r
      dsimp only
      split
      · exact ih rest.length ‹_› (g init a) rest rfl (by omega)
      · rfl

end Rules

section Languages

variable {f : Parser τ α} {K : Lang τ α} {n : Nat}

/-- A sound parser fails where no text of its language begins. -/
theorem Sound.fails (hf : Sound K f) {input : List τ}
    (h : ∀ {p rest : List τ} {a : α}, K p a → input ≠ p ++ rest) : Fails f input := by
  refine fails_iff.mpr fun rest a hr => ?_
  obtain ⟨p, hp, ha⟩ := hf.split hr
  exact h ha hp

/-- Two sound parsers in a row. -/
theorem Sound.pair {L : Lang τ β} {g : Parser τ β} (hf : Sound K f) (hg : Sound L g) :
    Sound (Concat K L) (pair f g) := by
  refine ⟨fun {input rest ab} h => ?_⟩
  obtain ⟨mid, hfm, hgm⟩ := pair_eq_ok.mp h
  obtain ⟨p, rfl, hp⟩ := hf.split hfm
  obtain ⟨q, rfl, hq⟩ := hg.split hgm
  exact ⟨p ++ q, (List.append_assoc ..).symm, .mk hp hq⟩

/-- What a repetition folds was read by the parser again and again. -/
theorem Sound.foldMany0 {g : β → α → β} (hf : Sound K f) (init : β) {input rest : List τ} {b : β}
    (h : foldMany0 f init g input = .ok (rest, b)) :
    ∃ p as, input = p ++ rest ∧ Star K p as ∧ b = as.foldl g init := by
  induction hlen : input.length using Nat.strongRecOn generalizing init input with
  | ind m ih =>
    subst hlen
    rw [Nom.foldMany0] at h
    cases hfi : f input with
    | error e =>
      rw [hfi] at h
      cases h
      exact ⟨[], [], rfl, .nil, rfl⟩
    | ok r =>
      obtain ⟨mid, a⟩ := r
      rw [hfi] at h
      dsimp only at h
      split at h
      · obtain ⟨p, rfl, hp⟩ := hf.split hfi
        obtain ⟨q, as, rfl, has, hb⟩ := ih _ ‹_› (g init a) h rfl
        exact ⟨p ++ q, a :: as, (List.append_assoc ..).symm, .cons hp has, hb⟩
      · cases h

theorem Sound.many0 (hf : Sound K f) : Sound (Star K) (many0 f) := by
  refine ⟨fun {input rest as} h => ?_⟩
  obtain ⟨p, as', hp, has, rfl⟩ := hf.foldMany0 [] h
  rw [foldl_push]
  exact ⟨p, hp, has⟩

/-- Two complete parsers in a row. -/
theorem Complete.pair {L : Lang τ β} {g : Parser τ β} (hf : Complete n K f) (hg : Complete n L g) :
    Complete n (Concat K L) (pair f g) := by
  refine ⟨fun {p ab} h hlen s => ?_⟩
  cases h with
  | @mk p q a b hp hq =>
    rw [List.length_append] at hlen
    rw [List.append_assoc]
    exact pair_eq_ok.mpr ⟨q ++ s, hf.reads hp (by omega) (q ++ s), hg.reads hq (by omega) s⟩

/-- Where `f` fails, the repetition that has read `as` ends. The texts of `K` are not empty. -/
theorem Complete.foldMany0 {g : β → α → β} (hf : Complete n K f) (hne : ∀ {a}, ¬ K [] a)
    {p s : List τ} {as : List α} (h : Star K p as) (hlen : p.length ≤ n) (hs : Fails f s)
    (init : β) : foldMany0 f init g (p ++ s) = .ok (s, as.foldl g init) := by
  induction h generalizing init with
  | nil => exact foldMany0_stop hs
  | @cons p q a as ha has ih =>
    rw [List.length_append] at hlen
    rw [List.append_assoc]
    have hpos : 0 < p.length := List.length_pos_iff.mpr fun hp => hne (hp ▸ ha)
    rw [foldMany0_next (hf.reads ha (by omega) (q ++ s)) (by simp only [List.length_append]; omega)]
    exact ih (by omega) (g init a)

theorem Complete.many0 (hf : Complete n K f) (hne : ∀ {a}, ¬ K [] a) {p s : List τ} {as : List α}
    (h : Star K p as) (hlen : p.length ≤ n) (hs : Fails f s) :
    many0 f (p ++ s) = .ok (s, as) := by
  unfold Nom.many0
  rw [hf.foldMany0 hne h hlen hs, foldl_push, List.nil_append]

/-- A complete parser reads a text in one way: no other prefix of the input is in the language. -/
theorem Complete.prefix_unique {p q s t : List τ} {a b : α} (hf : ∀ n, Complete n K f)
    (hp : K p a) (hq : K q b) (h : p ++ s = q ++ t) : p = q ∧ a = b := by
  have hps := (hf p.length).reads hp (Nat.le_refl _) s
  rw [h, (hf q.length).reads hq (Nat.le_refl _) t] at hps
  cases hps
  exact ⟨List.append_cancel_right h, rfl⟩

end Languages

end BitTorrent.Nom
