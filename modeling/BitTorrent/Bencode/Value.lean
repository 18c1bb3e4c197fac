import Mathlib.Tactic.Common

/-!
# Bencoded values (`bencode/mod.rs`)

`Value` is what both decoders build. A dictionary is a `BTreeMap`: its entries
in the order of their keys, one for each key, so two dictionaries are equal when
their entries are. Both decoders enter what they read by `btreeInsert`, one entry
after the other, so the order in which the keys come in the file is not seen.

Mirroring notes:

* `i64` is an integer. The bounds are checked where a number is parsed, and
  nothing is computed with it afterwards;
* `String` is Lean's, and keys are compared as strings are. Rust compares the
  bytes, and UTF-8 keeps the order of the characters, so that is the same order.
-/

namespace BitTorrent

/-- `BTreeMap::insert`: an equal key keeps its place and gets the new value. -/
def btreeInsert {κ β : Type} [LT κ] [DecidableLT κ] [DecidableEq κ] (m : List (κ × β))
    (entry : κ × β) : List (κ × β) :=
  match m with
  | [] => [entry]
  | e :: m =>
    if entry.1 < e.1 then entry :: e :: m
    else if entry.1 = e.1 then entry :: m
    else e :: btreeInsert m entry

section Insert

variable {κ β : Type} [LT κ] [DecidableLT κ] [DecidableEq κ] {m : List (κ × β)} {e entry : κ × β}

theorem btreeInsert_first (h : entry.1 < e.1) : btreeInsert (e :: m) entry = entry :: e :: m :=
  if_pos h

/-- An entry with the greatest key goes to the end. -/
theorem btreeInsert_last [Std.Asymm (α := κ) (· < ·)] (h : ∀ e ∈ m, e.1 < entry.1) :
    btreeInsert m entry = m ++ [entry] := by
  induction m with
  | nil => rfl
  | cons e m ih =>
    have he := h e (List.mem_cons_self ..)
    have hlt : ¬ entry.1 < e.1 := Std.Asymm.asymm _ _ he
    have hne : entry.1 ≠ e.1 := fun heq => hlt (heq ▸ he)
    rw [btreeInsert, if_neg hlt, if_neg hne, ih fun e' he' => h e' (List.mem_cons_of_mem e he')]
    rfl

end Insert

namespace Bencode

/-- An `i64` is an integer here: the decoders build none that is out of range. -/
inductive Value
  | int (n : Int)
  | string (s : String)
  | list (vs : List Value)
  | map (entries : List (String × Value))
  deriving Repr

end Bencode

end BitTorrent
