import Mathlib.Algebra.Group.Nat.Defs
import Mathlib.Tactic.Common

/-!
# Fixed-width arithmetic and vector splices, as Rust runs them

Machine integers are `Nat`s below `2 ^ w`. What `+` and `-` do when the result
does not fit depends on how the program was built: with overflow checks (the
`dev` profile) they panic, without (the `release` profile) they wrap. `Profile`
names the build, and a panic is `none`.

So what is proved for every `Profile` holds of both builds. A result that fits is
the same in both (`Profile.add_of_lt`, `Profile.sub_of_le`, `Profile.mul_of_lt`),
and a result that is returned is right modulo `2 ^ w` in both (`Profile.add_mod`,
`Profile.sub_mod`). Casts wrap in either (`asU32`), and `usize` has 64 bits.

`splice v b e new` is `Vec::splice(b..e, new)`: the range is replaced, whatever
the length of `new`, and a range that is not inside the vector panics. When `new`
is as long as the range, the vector keeps its length, and what is outside of the
range stays where it is.
-/

namespace BitTorrent

/-- The build profile: `dev` has overflow checks and debug assertions,
`release` has neither. -/
inductive Profile
  | dev
  | release
  deriving DecidableEq, Repr

/-- `x + y` at width `w`. -/
def Profile.add (p : Profile) (w x y : Nat) : Option Nat :=
  if x + y < 2 ^ w then some (x + y)
  else match p with
    | .dev => none
    | .release => some ((x + y) % 2 ^ w)

/-- `x - y` at width `w`. -/
def Profile.sub (p : Profile) (w x y : Nat) : Option Nat :=
  if y ≤ x then some (x - y)
  else match p with
    | .dev => none
    | .release => some ((2 ^ w + x - y) % 2 ^ w)

/-- `x * y` at width `w`. -/
def Profile.mul (p : Profile) (w x y : Nat) : Option Nat :=
  if x * y < 2 ^ w then some (x * y)
  else match p with
    | .dev => none
    | .release => some ((x * y) % 2 ^ w)

theorem Profile.add_of_lt (p : Profile) {w x y : Nat} (h : x + y < 2 ^ w) :
    p.add w x y = some (x + y) := by
  unfold Profile.add
  exact if_pos h

theorem Profile.sub_of_le (p : Profile) {w x y : Nat} (h : y ≤ x) :
    p.sub w x y = some (x - y) := by
  unfold Profile.sub
  exact if_pos h

theorem Profile.mul_of_lt (p : Profile) {w x y : Nat} (h : x * y < 2 ^ w) :
    p.mul w x y = some (x * y) := by
  unfold Profile.mul
  exact if_pos h

/-- Whatever the build, a sum that does not panic is right modulo `2 ^ w`. -/
theorem Profile.add_mod {p : Profile} {w x y z : Nat} (h : p.add w x y = some z) :
    z % 2 ^ w = (x + y) % 2 ^ w := by
  unfold Profile.add at h
  split at h
  · rw [← Option.some.inj h]
  · cases p with
    | dev => cases h
    | release => rw [← Option.some.inj h, Nat.mod_mod]

/-- A sum fits. -/
theorem Profile.add_lt {p : Profile} {w x y z : Nat} (h : p.add w x y = some z) :
    z < 2 ^ w := by
  unfold Profile.add at h
  split at h
  next hlt => rw [← Option.some.inj h]; exact hlt
  next =>
    cases p with
    | dev => cases h
    | release => rw [← Option.some.inj h]; exact Nat.mod_lt _ (Nat.two_pow_pos w)

/-- A difference that does not panic is right modulo `2 ^ w`. -/
theorem Profile.sub_mod {p : Profile} {w x y z : Nat} (hy : y ≤ 2 ^ w)
    (h : p.sub w x y = some z) : (z + y) % 2 ^ w = x % 2 ^ w := by
  unfold Profile.sub at h
  split at h
  next hle => rw [← Option.some.inj h, Nat.sub_add_cancel hle]
  next hlt =>
    cases p with
    | dev => cases h
    | release =>
      rw [← Option.some.inj h, Nat.mod_add_mod]
      rw [show 2 ^ w + x - y + y = x + 2 ^ w by omega, Nat.add_mod_right]

/-- A difference fits. -/
theorem Profile.sub_lt {p : Profile} {w x y z : Nat} (hx : x < 2 ^ w)
    (h : p.sub w x y = some z) : z < 2 ^ w := by
  unfold Profile.sub at h
  split at h
  next => rw [← Option.some.inj h]; omega
  next =>
    cases p with
    | dev => cases h
    | release => rw [← Option.some.inj h]; exact Nat.mod_lt _ (Nat.two_pow_pos w)

/-- `x as u32`. -/
def asU32 (x : Nat) : Nat := x % 2 ^ 32

theorem asU32_of_lt {x : Nat} (h : x < 2 ^ 32) : asU32 x = x := Nat.mod_eq_of_lt h

/-! ## Splices -/

section Splice

variable {α : Type} {v new : List α} {b e : Nat}

/-- `v.splice(b..e, new)`. -/
def splice (v : List α) (b e : Nat) (new : List α) : Option (List α) :=
  if b ≤ e ∧ e ≤ v.length then some (v.take b ++ new ++ v.drop e) else none

theorem splice_of_le (hbe : b ≤ e) (he : e ≤ v.length) :
    splice v b e new = some (v.take b ++ new ++ v.drop e) := by
  rw [splice, if_pos ⟨hbe, he⟩]

theorem splice_range {v' : List α} (h : splice v b e new = some v') : b ≤ e ∧ e ≤ v.length := by
  unfold splice at h
  split at h
  next hc => exact hc
  next => cases h

/-- Replacing a range by as many elements keeps the length. -/
theorem splice_length {v' : List α} (h : splice v b e new = some v')
    (hnew : new.length = e - b) : v'.length = v.length := by
  obtain ⟨hbe, he⟩ := splice_range h
  rw [splice_of_le hbe he] at h
  rw [← Option.some.inj h]
  simp only [List.length_append, List.length_take, List.length_drop]
  omega

/-- Inside the range a splice of equal length reads the new elements. -/
theorem splice_getElem?_mem {v' : List α} (h : splice v b e new = some v')
    (hnew : new.length = e - b) {i : Nat} (hbi : b ≤ i) (hie : i < e) :
    v'[i]? = new[i - b]? := by
  obtain ⟨hbe, he⟩ := splice_range h
  rw [splice_of_le hbe he] at h
  have hb : (v.take b).length = b := by rw [List.length_take]; omega
  rw [← Option.some.inj h, List.append_assoc, List.getElem?_append_right (by omega), hb,
    List.getElem?_append_left (by omega)]

/-- Outside the range a splice of equal length reads the old elements. -/
theorem splice_getElem?_not_mem {v' : List α} (h : splice v b e new = some v')
    (hnew : new.length = e - b) {i : Nat} (hi : i < b ∨ e ≤ i) : v'[i]? = v[i]? := by
  obtain ⟨hbe, he⟩ := splice_range h
  rw [splice_of_le hbe he] at h
  have hb : (v.take b).length = b := by rw [List.length_take]; omega
  rw [← Option.some.inj h]
  rcases hi with hlt | hge
  · rw [List.append_assoc, List.getElem?_append_left (by omega), List.getElem?_take_of_lt hlt]
  · rw [List.getElem?_append_right (by rw [List.length_append]; omega), List.length_append, hb,
      List.getElem?_drop]
    congr 1
    omega

end Splice

end BitTorrent
