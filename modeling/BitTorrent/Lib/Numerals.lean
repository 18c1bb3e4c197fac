import Mathlib.Algebra.Group.Int.Defs
import Mathlib.Algebra.Group.Nat.Defs
import Mathlib.Tactic.Common

/-!
# Decimal numbers in bytes, as Rust reads them

`parseI64` and `parseU64` are `str::parse` on the bytes of a string: an optional
sign (a minus for the signed type only), then at least one digit, with an error
at the first byte that is none and at the first digit that does not fit.
`parseDigits` works on the magnitude, and a sign only changes the bound.

`decimal` and `decimalInt` write a number without leading zeros, as `format!`
does. `Digits` says what a numeral means. A text parses exactly when it is a numeral
whose value is in range (`parseI64_eq_ok`, `parseU64_eq_ok`).

The errors are Rust's (`IntErrorKind`), and they come in the same order: the digits
are added up one by one, so a number that is too large is an overflow before what
follows its digits is looked at. The intermediate results are natural numbers that
are compared with the bound, where Rust multiplies and adds with checks.
-/

namespace BitTorrent

/-- `char::to_digit(10)` of a byte. -/
def toDigit (c : UInt8) : Option Nat :=
  if 48 ≤ c.toNat ∧ c.toNat ≤ 57 then some (c.toNat - 48) else none

/-- `u8::is_ascii_digit`. -/
def IsDigit (c : UInt8) : Prop := 48 ≤ c.toNat ∧ c.toNat ≤ 57

instance (c : UInt8) : Decidable (IsDigit c) := inferInstanceAs (Decidable (_ ∧ _))

/-- `IntErrorKind`. -/
inductive ParseIntError
  | empty
  | invalidDigit
  | posOverflow
  | negOverflow
  deriving DecidableEq, Repr

/-- The digits after `acc`, as long as the number is at most `limit`. -/
def parseDigits (limit : Nat) (overflow : ParseIntError) :
    Nat → List UInt8 → Except ParseIntError Nat
  | acc, [] => .ok acc
  | acc, c :: cs =>
    match toDigit c with
    | none => .error .invalidDigit
    | some d =>
      if acc * 10 + d ≤ limit then parseDigits limit overflow (acc * 10 + d) cs else .error overflow

/-- `b'+'` -/
def plus : UInt8 := 43
/-- `b'-'` -/
def minus : UInt8 := 45

/-- `str::parse::<i64>`, on the bytes of the text. -/
def parseI64 : List UInt8 → Except ParseIntError Int
  | [] => .error .empty
  | c :: cs =>
    if cs = [] ∧ (c = plus ∨ c = minus) then .error .invalidDigit
    else if c = plus then (parseDigits (2 ^ 63 - 1) .posOverflow 0 cs).map Int.ofNat
    else if c = minus then (parseDigits (2 ^ 63) .negOverflow 0 cs).map fun n : Nat => -(n : Int)
    else (parseDigits (2 ^ 63 - 1) .posOverflow 0 (c :: cs)).map Int.ofNat

/-- `str::parse::<u64>`, on the bytes of the text. -/
def parseU64 : List UInt8 → Except ParseIntError Nat
  | [] => .error .empty
  | c :: cs =>
    if cs = [] ∧ (c = plus ∨ c = minus) then .error .invalidDigit
    else if c = plus then parseDigits (2 ^ 64 - 1) .posOverflow 0 cs
    else parseDigits (2 ^ 64 - 1) .posOverflow 0 (c :: cs)

/-- The digits of a number. -/
@[semireducible] def decimal (n : Nat) : List UInt8 :=
  if n < 10 then [UInt8.ofNat (48 + n)] else decimal (n / 10) ++ [UInt8.ofNat (48 + n % 10)]
termination_by n

/-- The digits of an integer, with its sign. -/
def decimalInt : Int → List UInt8
  | .ofNat n => decimal n
  | .negSucc n => minus :: decimal (n + 1)

/-! ## What a numeral means -/

/-- The value of the digits after `acc`. -/
def digitsFrom : Nat → List UInt8 → Nat
  | acc, [] => acc
  | acc, c :: cs => digitsFrom (acc * 10 + (c.toNat - 48)) cs

/-- The digits `ds` denote `n`. -/
structure Digits (ds : List UInt8) (n : Nat) : Prop where
  ne_nil : ds ≠ []
  digit : ∀ c ∈ ds, IsDigit c
  value : digitsFrom 0 ds = n

/-- The digits `ds`, with or without a sign, denote `n`. -/
inductive SignedDigits : List UInt8 → Int → Prop
  | unsigned {ds : List UInt8} {n : Nat} (h : Digits ds n) : SignedDigits ds n
  | plus {ds : List UInt8} {n : Nat} (h : Digits ds n) : SignedDigits (plus :: ds) n
  | minus {ds : List UInt8} {n : Nat} (h : Digits ds n) : SignedDigits (minus :: ds) (-(n : Int))

section Numerals

variable {limit acc n : Nat} {overflow : ParseIntError} {c : UInt8} {cs text : List UInt8}

theorem toDigit_of_isDigit (h : IsDigit c) : toDigit c = some (c.toNat - 48) := if_pos h

theorem toDigit_eq_none (h : ¬ IsDigit c) : toDigit c = none := if_neg h

theorem not_isDigit_plus : ¬ IsDigit plus := by decide

theorem not_isDigit_minus : ¬ IsDigit minus := by decide

/-- A digit is no sign. -/
theorem not_sign_of_isDigit {c : UInt8} (h : IsDigit c) : c ≠ plus ∧ c ≠ minus := by
  constructor
  · intro heq
    exact not_isDigit_plus (heq ▸ h)
  · intro heq
    exact not_isDigit_minus (heq ▸ h)

/-- More digits make no less. -/
theorem le_digitsFrom (cs : List UInt8) : ∀ acc, acc ≤ digitsFrom acc cs := by
  induction cs with
  | nil => exact fun acc => Nat.le_refl _
  | cons c cs ih =>
    intro acc
    have := ih (acc * 10 + (c.toNat - 48))
    show acc ≤ digitsFrom _ cs
    omega

/-- The digits are read exactly when they are digits and the value fits: on the
way there it only grows. -/
theorem parseDigits_eq_ok (hacc : acc ≤ limit) :
    parseDigits limit overflow acc cs = .ok n ↔
      (∀ c ∈ cs, IsDigit c) ∧ digitsFrom acc cs = n ∧ n ≤ limit := by
  induction cs generalizing acc with
  | nil =>
    show Except.ok acc = Except.ok n ↔ _ ∧ acc = n ∧ _
    constructor
    · intro h
      obtain rfl := Except.ok.inj h
      exact ⟨fun _ hc => absurd hc (List.not_mem_nil), rfl, hacc⟩
    · intro hp
      obtain ⟨-, rfl, -⟩ := hp
      rfl
  | cons c cs ih =>
    unfold parseDigits
    by_cases hc : IsDigit c
    · rw [toDigit_of_isDigit hc]
      dsimp only
      by_cases hle : acc * 10 + (c.toNat - 48) ≤ limit
      · rw [if_pos hle, ih hle]
        simp only [List.forall_mem_cons, hc, true_and]
        exact Iff.rfl
      · rw [if_neg hle]
        refine iff_of_false (fun h => by cases h) ?_
        intro hp
        obtain ⟨-, hval, hn⟩ := hp
        have := le_digitsFrom cs (acc * 10 + (c.toNat - 48))
        change digitsFrom (acc * 10 + (c.toNat - 48)) cs = n at hval
        omega
    · rw [toDigit_eq_none hc]
      refine iff_of_false (fun h => by cases h) ?_
      intro hp
      obtain ⟨hall, -⟩ := hp
      exact hc (hall c (List.mem_cons_self ..))

theorem digits_iff (h : cs ≠ []) :
    parseDigits limit overflow 0 cs = .ok n ↔ Digits cs n ∧ n ≤ limit := by
  rw [parseDigits_eq_ok (Nat.zero_le _)]
  exact ⟨fun ⟨h₁, h₂, h₃⟩ => ⟨⟨h, h₁, h₂⟩, h₃⟩, fun ⟨h₁, h₃⟩ => ⟨h₁.digit, h₁.value, h₃⟩⟩

/-- What `Except.map` returns. -/
theorem exceptMap_eq_ok {α β : Type} {f : α → β} {e : Except ParseIntError α} {b : β} :
    e.map f = .ok b ↔ ∃ a, e = .ok a ∧ f a = b := by
  cases e with
  | error e => exact iff_of_false (fun h => by cases h) fun ⟨_, h, _⟩ => by cases h
  | ok a =>
    constructor
    · exact fun h => ⟨a, rfl, Except.ok.inj h⟩
    · intro hp
      obtain ⟨_, h, rfl⟩ := hp
      rw [Except.ok.inj h]
      rfl

theorem Digits.head (h : Digits (c :: cs) n) : IsDigit c := h.digit c (List.mem_cons_self ..)

/-- The three forms of a signed numeral exclude each other. -/
theorem signedDigits_cons {m : Int} : SignedDigits (c :: cs) m ↔
    (c = plus ∧ ∃ n : Nat, Digits cs n ∧ m = n) ∨
    (c = minus ∧ ∃ n : Nat, Digits cs n ∧ m = -(n : Int)) ∨
    (c ≠ plus ∧ c ≠ minus ∧ ∃ n : Nat, Digits (c :: cs) n ∧ m = n) := by
  constructor
  · intro h
    cases h with
    | @unsigned ds n h =>
      obtain ⟨hp, hm⟩ := not_sign_of_isDigit h.head
      exact Or.inr (Or.inr ⟨hp, hm, n, h, rfl⟩)
    | @plus ds n h => exact Or.inl ⟨rfl, n, h, rfl⟩
    | @minus ds n h => exact Or.inr (Or.inl ⟨rfl, n, h, rfl⟩)
  · intro hcases
    rcases hcases with ⟨rfl, n, h, rfl⟩ | ⟨rfl, n, h, rfl⟩ | ⟨-, -, n, h, rfl⟩
    · exact .plus h
    · exact .minus h
    · exact .unsigned h

/-- **`parse::<i64>`** accepts the signed numerals whose value is an `i64`. -/
theorem parseI64_eq_ok {m : Int} :
    parseI64 text = .ok m ↔ SignedDigits text m ∧ -2 ^ 63 ≤ m ∧ m < 2 ^ 63 := by
  cases text with
  | nil =>
    refine iff_of_false (fun h => by cases h) fun h => ?_
    obtain ⟨h, -⟩ := h
    cases h with
    | unsigned h => exact h.ne_nil rfl
  | cons c cs =>
    rw [signedDigits_cons]
    simp only [parseI64]
    by_cases hsign : c = plus ∨ c = minus
    · by_cases hnil : cs = []
      -- a sign alone is an error
      · rw [if_pos ⟨hnil, hsign⟩]
        refine iff_of_false (fun h => by cases h) ?_
        intro hq
        obtain ⟨⟨-, n, h, -⟩ | ⟨-, n, h, -⟩ | ⟨hp, hm, -⟩, -⟩ := hq
        · exact h.ne_nil hnil
        · exact h.ne_nil hnil
        · exact hsign.elim hp hm
      · rw [if_neg fun h : _ ∧ _ => hnil h.1]
        rcases hsign with rfl | rfl
        · rw [if_pos rfl, exceptMap_eq_ok]
          simp only [digits_iff hnil]
          constructor
          · intro hq
            obtain ⟨n, ⟨h, hn⟩, rfl⟩ := hq
            exact ⟨Or.inl ⟨trivial, n, h, rfl⟩, by simp only [Int.ofNat_eq_natCast]; omega,
              by simp only [Int.ofNat_eq_natCast]; omega⟩
          · intro hq
            obtain ⟨⟨-, n, h, rfl⟩ | ⟨hp, -⟩ | ⟨hp, -⟩, -, hlt⟩ := hq
            · exact ⟨n, ⟨h, by omega⟩, rfl⟩
            · exact absurd hp (by decide)
            · exact absurd rfl hp
        · rw [if_neg (by decide), if_pos rfl, exceptMap_eq_ok]
          simp only [digits_iff hnil]
          constructor
          · intro hq
            obtain ⟨n, ⟨h, hn⟩, rfl⟩ := hq
            exact ⟨Or.inr (Or.inl ⟨trivial, n, h, rfl⟩), by omega, by omega⟩
          · intro hq
            obtain ⟨⟨hp, -⟩ | ⟨-, n, h, rfl⟩ | ⟨-, hm, -⟩, hge, -⟩ := hq
            · exact absurd hp (by decide)
            · exact ⟨n, ⟨h, by omega⟩, rfl⟩
            · exact absurd rfl hm
    -- no sign
    · obtain ⟨hp, hm⟩ := not_or.mp hsign
      rw [if_neg fun h : _ ∧ _ => hsign h.2, if_neg hp, if_neg hm, exceptMap_eq_ok]
      simp only [digits_iff (List.cons_ne_nil c cs)]
      constructor
      · intro hq
        obtain ⟨n, ⟨h, hn⟩, rfl⟩ := hq
        exact ⟨Or.inr (Or.inr ⟨hp, hm, n, h, rfl⟩), by simp only [Int.ofNat_eq_natCast]; omega,
          by simp only [Int.ofNat_eq_natCast]; omega⟩
      · intro hq
        obtain ⟨⟨hp', -⟩ | ⟨hm', -⟩ | ⟨-, -, n, h, rfl⟩, -, hlt⟩ := hq
        · exact absurd hp' hp
        · exact absurd hm' hm
        · exact ⟨n, ⟨h, by omega⟩, rfl⟩

/-- **`parse::<u64>`** of a text that begins with a digit. -/
theorem parseU64_eq_ok (h : ∀ c ∈ text.head?, IsDigit c) :
    parseU64 text = .ok n ↔ Digits text n ∧ n < 2 ^ 64 := by
  cases text with
  | nil => exact iff_of_false (fun h => by cases h) fun h => h.1.ne_nil rfl
  | cons c cs =>
    have hc := h c rfl
    obtain ⟨hp, hm⟩ := not_sign_of_isDigit hc
    simp only [parseU64]
    rw [if_neg fun h : _ ∧ _ => h.2.elim hp hm, if_neg hp, digits_iff (List.cons_ne_nil c cs)]
    exact and_congr_right fun _ => by omega

/-- Every byte of a numeral is a digit or a sign. -/
theorem isDigit_or_sign {m : Int} (h : SignedDigits text m) (hc : c ∈ text) :
    IsDigit c ∨ c = plus ∨ c = minus := by
  cases h with
  | unsigned h => exact Or.inl (h.digit c hc)
  | plus h =>
    rcases List.mem_cons.mp hc with rfl | hc
    · exact Or.inr (Or.inl rfl)
    · exact Or.inl (h.digit c hc)
  | minus h =>
    rcases List.mem_cons.mp hc with rfl | hc
    · exact Or.inr (Or.inr rfl)
    · exact Or.inl (h.digit c hc)

/-- A text is a numeral of one number. -/
theorem SignedDigits.unique {m m' : Int} (h : SignedDigits text m) (h' : SignedDigits text m') :
    m = m' := by
  cases text with
  | nil =>
    cases h with
    | unsigned h => exact absurd rfl h.ne_nil
  | cons c cs =>
    rcases signedDigits_cons.mp h with ⟨rfl, n, hd, rfl⟩ | ⟨rfl, n, hd, rfl⟩ | ⟨hp, hm, n, hd, rfl⟩
    · rcases signedDigits_cons.mp h' with ⟨-, n', hd', rfl⟩ | ⟨hc, -⟩ | ⟨hp, -⟩
      · rw [← hd.value, ← hd'.value]
      · exact absurd hc (by decide)
      · exact absurd rfl hp
    · rcases signedDigits_cons.mp h' with ⟨hc, -⟩ | ⟨-, n', hd', rfl⟩ | ⟨-, hm, -⟩
      · exact absurd hc (by decide)
      · rw [← hd.value, ← hd'.value]
      · exact absurd rfl hm
    · rcases signedDigits_cons.mp h' with ⟨hc, -⟩ | ⟨hc, -⟩ | ⟨-, -, n', hd', rfl⟩
      · exact absurd hc hp
      · exact absurd hc hm
      · rw [← hd.value, ← hd'.value]

theorem Digits.not_mem (h : Digits cs n) (hc : ¬ IsDigit c) : c ∉ cs := fun hmem =>
  hc (h.digit c hmem)

/-- A byte that does not occur before splits a text in one way. -/
theorem split_unique {b b' cs' : List UInt8} (hc : c ∉ cs) (hc' : c ∉ cs')
    (h : cs ++ c :: b = cs' ++ c :: b') : cs = cs' ∧ b = b' := by
  induction cs generalizing cs' with
  | nil =>
    cases cs' with
    | nil => exact ⟨rfl, (List.cons.inj h).2⟩
    | cons t cs' => exact absurd (List.mem_cons.mpr (Or.inl (List.cons.inj h).1)) hc'
  | cons t cs ih =>
    cases cs' with
    | nil => exact absurd (List.mem_cons.mpr (Or.inl (List.cons.inj h).1.symm)) hc
    | cons t' cs' =>
      obtain ⟨rfl, htl⟩ := List.cons.inj h
      obtain ⟨rfl, hb⟩ := ih (mt (List.mem_cons_of_mem t) hc) (mt (List.mem_cons_of_mem t) hc') htl
      exact ⟨rfl, hb⟩

theorem digitsFrom_append (cs : List UInt8) (c : UInt8) :
    ∀ acc, digitsFrom acc (cs ++ [c]) = digitsFrom acc cs * 10 + (c.toNat - 48) := by
  induction cs with
  | nil => exact fun acc => rfl
  | cons c' cs ih => exact fun acc => ih _

theorem toNat_digit {d : Nat} (hd : d < 10) : (UInt8.ofNat (48 + d)).toNat = 48 + d :=
  UInt8.toNat_ofNat_of_lt (by show 48 + d < 256; omega)

theorem isDigit_digit {d : Nat} (hd : d < 10) : IsDigit (UInt8.ofNat (48 + d)) := by
  unfold IsDigit
  rw [toNat_digit hd]
  omega

/-- The digits of a number are a numeral of it. -/
theorem digits_decimal (n : Nat) : Digits (decimal n) n := by
  induction n using Nat.strongRecOn with
  | ind n ih =>
    unfold decimal
    split
    · refine ⟨List.cons_ne_nil _ _, fun c hc => ?_, ?_⟩
      · rw [List.mem_singleton.mp hc]
        exact isDigit_digit ‹_›
      · show 0 * 10 + ((UInt8.ofNat (48 + n)).toNat - 48) = n
        rw [toNat_digit ‹_›]
        omega
    · have hmod : n % 10 < 10 := Nat.mod_lt n (by omega)
      obtain ⟨-, hdigit, hval⟩ := ih (n / 10) (by omega)
      refine ⟨by simp, fun c hc => ?_, ?_⟩
      · rcases List.mem_append.mp hc with hc | hc
        · exact hdigit c hc
        · rw [List.mem_singleton.mp hc]
          exact isDigit_digit hmod
      · rw [digitsFrom_append, hval, toNat_digit hmod]
        omega

theorem signedDigits_decimalInt (m : Int) : SignedDigits (decimalInt m) m := by
  cases m with
  | ofNat n => exact .unsigned (digits_decimal n)
  | negSucc n => exact .minus (digits_decimal (n + 1))

end Numerals

end BitTorrent
