import BitTorrent.Bencode.Nom

/-!
# The decoder written by hand (`bencode/plain.rs`)

It looks for the colon after a length and for the `e` after an integer in all
that is left of the input, and slices there. It looks for the `e` of a list only
after an element, and for that of a dictionary only after an entry. A slice that
is too long, a key that is no string and a byte that begins no value make it
panic.

Loops and recursion share the fuel, one for each call and each round. `decode`
has two for each byte, and they are enough: it never comes out `unfinished`
(`decodeAt_matches` in `Bencode.Decoder`).

Mirroring notes:

* the four arms of the `match` are functions of their own, and the two loops go on
  from the list or map that they have so far;
* `?` is the bind of `Decoded`, so an error or a panic leaves the loops at once.
  The panics keep what their message says, and errors of `str` and of `parse` are
  wrapped as `anyhow` wraps them;
* `usize` has 64 bits, and a length is at most `2 ^ 64 - 1` before it is compared
  with what is left;
* the stack is not modelled, as in `Bencode.Nom`.
-/

namespace BitTorrent.Bencode

/-- An `anyhow::Error`: a message, or the error it wraps. -/
inductive DecodeError
  | msg (text : String)
  | utf8 (err : Utf8Error)
  | parseInt (err : ParseIntError)
  /-- `"decode error using nom {err}"` -/
  | nom (err : BitTorrent.Nom.Error UInt8)
  deriving DecidableEq, Repr

/-- The panics of `plain::decode`. -/
inductive DecodePanic
  /-- The slice `..stop` of `len` bytes. -/
  | slice (stop len : Nat)
  /-- `"dictionary keys must be string"` -/
  | keyKind
  /-- `todo!()` -/
  | todo
  deriving DecidableEq, Repr

/-- How a decoder ends. -/
inductive Decoded (α : Type)
  | ok (a : α)
  | err (e : DecodeError)
  | panicked (e : DecodePanic)
  | unfinished
  deriving Repr

namespace Decoded

variable {α β ε : Type}

/-- The `?` of `plain`: an error or a panic ends the function. -/
def bind (x : Decoded α) (f : α → Decoded β) : Decoded β :=
  match x with
  | ok a => f a
  | err e => err e
  | panicked e => panicked e
  | unfinished => unfinished

instance : Monad Decoded where
  pure := ok
  bind := bind

/-- The operator `?` on a `Result`. -/
def ofExcept (f : ε → DecodeError) : Except ε α → Decoded α
  | .ok a => ok a
  | .error e => err (f e)

end Decoded

namespace Plain

/-- `iter().position(|&b| b == c)`. -/
def position (c : UInt8) (bytes : List UInt8) : Option Nat := bytes.findIdx? (· = c)

/-- `string`. The slice `..len` panics when fewer bytes are left. -/
def string (bytes : List UInt8) : Decoded (List UInt8 × Value) :=
  match position ':'.toUInt8 bytes with
  | none => .err (.msg "string size is missing ':'")
  | some colonPos => do
    let text ← .ofExcept .utf8 (fromUtf8 (bytes.take colonPos))
    let len ← .ofExcept .parseInt (parseU64 (asBytes text))
    let bytes := bytes.drop (colonPos + 1)
    if len ≤ bytes.length then
      return (bytes.drop len, .string (fromUtf8Lossy (bytes.take len)))
    else .panicked (.slice len bytes.length)

/-- `integer`, from the `i` up to the first `e`. -/
def integer (bytes : List UInt8) : Decoded (List UInt8 × Value) :=
  match position 'e'.toUInt8 bytes with
  | none => .err (.msg "missing 'e' when parsing integer")
  | some endPos => do
    let text ← .ofExcept .utf8 (fromUtf8 ((bytes.take endPos).drop 1))
    let num ← .ofExcept .parseInt (parseI64 (asBytes text))
    return (bytes.drop (endPos + 1), .int num)

mutual

/-- `decode` with fuel for its calls of itself. It runs out of it as `unfinished`;
`decode` has enough. -/
def decodeAt : Nat → List UInt8 → Decoded (List UInt8 × Value)
  | 0, _ => .unfinished
  | _ + 1, [] => .err (.msg "input is empty")
  | fuel + 1, ch :: bytes =>
    if IsDigit ch then string (ch :: bytes)
    else if ch = 'i'.toUInt8 then integer (ch :: bytes)
    else if ch = 'l'.toUInt8 then listLoop fuel bytes []
    else if ch = 'd'.toUInt8 then dictLoop fuel bytes []
    else .panicked .todo

/-- The loop over a list: an element is decoded before the `e` is looked for. -/
def listLoop : Nat → List UInt8 → List Value → Decoded (List UInt8 × Value)
  | 0, _, _ => .unfinished
  | fuel + 1, bytes, list => do
    let (bytes, elem) ← decodeAt fuel bytes
    if bytes.head? = some 'e'.toUInt8 then return (bytes.tail, .list (list ++ [elem]))
    else listLoop fuel bytes (list ++ [elem])

/-- The loop over a dictionary: a key and a value are decoded before the `e` is
looked for. -/
def dictLoop : Nat → List UInt8 → List (String × Value) → Decoded (List UInt8 × Value)
  | 0, _, _ => .unfinished
  | fuel + 1, bytes, map => do
    let (bytes, key) ← decodeAt fuel bytes
    match key with
    | .string key =>
      let (bytes, val) ← decodeAt fuel bytes
      if bytes.head? = some 'e'.toUInt8 then return (bytes.tail, .map (btreeInsert map (key, val)))
      else dictLoop fuel bytes (btreeInsert map (key, val))
    | _ => .panicked .keyKind

end

/-- `decode`. Every byte costs two calls at most. -/
def decode (bytes : List UInt8) : Decoded (List UInt8 × Value) :=
  decodeAt (2 * bytes.length + 1) bytes

/-! ## Where a byte first stands -/

section Position

variable {c : UInt8} {a b : List UInt8}

/-- `position` finds the first of them. -/
theorem position_append (ha : c ∉ a) : position c (a ++ c :: b) = some a.length := by
  unfold position
  induction a with
  | nil => exact List.findIdx?_cons.trans (if_pos (decide_eq_true rfl))
  | cons t a ih =>
    obtain ⟨hc, ha⟩ := not_or.mp (mt List.mem_cons.mpr ha)
    rw [List.cons_append, List.findIdx?_cons, if_neg (by simpa using Ne.symm hc), ih ha]
    rfl

/-- Either the byte is not there, or the input splits at the first of them. -/
theorem position_cases (c : UInt8) (bytes : List UInt8) :
    position c bytes = none ∧ c ∉ bytes ∨ ∃ a b, bytes = a ++ c :: b ∧ c ∉ a := by
  by_cases hc : c ∈ bytes
  · obtain ⟨a, b, rfl, ha⟩ := List.eq_append_cons_of_mem hc
    exact Or.inr ⟨a, b, rfl, ha⟩
  · refine Or.inl ⟨List.findIdx?_eq_none_iff.mpr fun t ht => decide_eq_false ?_, hc⟩
    exact fun he => hc (he ▸ ht)

/-- `string` when the colon is found. -/
theorem string_append (ha : ':'.toUInt8 ∉ a) : string (a ++ ':'.toUInt8 :: b) =
    (Decoded.ofExcept .utf8 (fromUtf8 a)).bind fun text =>
      (Decoded.ofExcept .parseInt (parseU64 (asBytes text))).bind fun len =>
        if len ≤ b.length then .ok (b.drop len, .string (fromUtf8Lossy (b.take len)))
        else .panicked (.slice len b.length) := by
  unfold string
  rw [position_append ha]
  dsimp only
  rw [List.take_left, ← List.drop_drop, List.drop_left]
  rfl

/-- `integer` when the `e` is found. -/
theorem integer_append (ha : 'e'.toUInt8 ∉ a) : integer (a ++ 'e'.toUInt8 :: b) =
    (Decoded.ofExcept .utf8 (fromUtf8 (a.drop 1))).bind fun text =>
      (Decoded.ofExcept .parseInt (parseI64 (asBytes text))).bind fun num =>
        .ok (b, .int num) := by
  unfold integer
  rw [position_append ha]
  dsimp only
  rw [List.take_left, ← List.drop_drop, List.drop_left]
  rfl

end Position

end Plain

end BitTorrent.Bencode
