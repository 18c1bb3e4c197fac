import BitTorrent.Bencode.Value
import BitTorrent.Lib.Nom
import BitTorrent.Lib.Utf8

/-!
# The grammar of bencoded values

`Derives p v`: the bytes `p` are a value, and it is `v`. It is a relation, one
rule for each kind of value, and says nothing of how a value is found.

It is the grammar that the code has, which is wider than the format's. Numbers may
have leading zeros, and integers a plus or a minus in front of them, as long as
the number fits; a string is any bytes, and what is not UTF-8 in them is replaced;
keys come in any order, and a later entry replaces an earlier one of the same key.
Lists and dictionaries may be empty.

Both decoders are measured by it: the one of `Bencode.Nom` reads exactly this
(`Nom.decode_eq_ok`), and the one of `Bencode.Plain` a part of it.
-/

namespace BitTorrent.Bencode

open Nom

/-- A string: its length, a colon, and that many bytes. -/
inductive DerivesString : Lang UInt8 String
  | mk {ds bytes : List UInt8} (hds : Digits ds bytes.length) (hlt : bytes.length < 2 ^ 64) :
      DerivesString (ds ++ ':'.toUInt8 :: bytes) (fromUtf8Lossy bytes)

/-- The texts of a value: `i…e`, a string with its length, `l…e` and `d…e`. A
dictionary's entries are inserted into a map one after another, so the last of two
equal keys stays. -/
inductive Derives : Lang UInt8 Value
  | int {ds : List UInt8} {n : Int} (hds : SignedDigits ds n) (hn : -2 ^ 63 ≤ n ∧ n < 2 ^ 63) :
      Derives ('i'.toUInt8 :: (ds ++ ['e'.toUInt8])) (.int n)
  | string {p : List UInt8} {s : String} (hs : DerivesString p s) : Derives p (.string s)
  | list {p : List UInt8} {vs : List Value} (hvs : Star Derives p vs) :
      Derives ('l'.toUInt8 :: (p ++ ['e'.toUInt8])) (.list vs)
  | dict {p : List UInt8} {entries : List (String × Value)}
      (hentries : Star (Concat DerivesString Derives) p entries) :
      Derives ('d'.toUInt8 :: (p ++ ['e'.toUInt8])) (.map (entries.foldl btreeInsert []))

/-! ## The first byte of a value says which kind it is -/

/-- A string begins with a digit. -/
theorem DerivesString.head {p : List UInt8} {s : String} (h : DerivesString p s) :
    ∃ c cs, p = c :: cs ∧ IsDigit c := by
  cases h with
  | @mk ds bytes hds hlt =>
    cases ds with
    | nil => exact absurd rfl hds.ne_nil
    | cons c cs => exact ⟨c, cs ++ ':'.toUInt8 :: bytes, rfl, hds.head⟩

/-- No value begins with the byte that ends a list. -/
theorem Derives.head {p : List UInt8} {v : Value} (h : Derives p v) :
    ∃ c cs, p = c :: cs ∧ c ≠ 'e'.toUInt8 := by
  cases h with
  | int => exact ⟨_, _, rfl, by decide⟩
  | string hs =>
    obtain ⟨c, cs, hp, hc⟩ := hs.head
    exact ⟨c, cs, hp, fun he => absurd (he ▸ hc) (by decide)⟩
  | list => exact ⟨_, _, rfl, by decide⟩
  | dict => exact ⟨_, _, rfl, by decide⟩

theorem Derives.ne_nil {v : Value} : ¬ Derives [] v := fun h => by
  obtain ⟨c, cs, hp, -⟩ := h.head
  cases hp

end BitTorrent.Bencode
