import Mathlib.Data.List.Basic
import Mathlib.Tactic.Common

/-!
# `application/x-www-form-urlencoded`

The format of the pairs in the query of a URL. A byte stands for itself, is the
space that is written as a plus, or is written as a percent sign and two
hexadecimal digits. `byteSerialize` and `appendPair` write the format as
`form_urlencoded` does, `parse` reads it.

`Spells s bytes` says that the text `s` is read as `bytes` wherever it stands in
a name or a value. Texts are put together by its lemmas, and a pair whose name
and value are spelled is read back (`parse_pair`). What is written is therefore
read as it was (`parse_extendPairs`), and queries can be joined (`parse_join`).
-/

namespace BitTorrent.FormUrl

/-! ## Writing -/

/-- Which digits stand for ten to fifteen. -/
inductive HexCase
  | upper
  | lower
  deriving DecidableEq, Repr

/-- The byte of the digit ten. -/
def HexCase.ten : HexCase → Nat
  | .upper => 'A'.toNat
  | .lower => 'a'.toNat

/-- A digit in base 16. -/
def hexDigit (u : HexCase) (d : Nat) : UInt8 :=
  UInt8.ofNat (if d < 10 then '0'.toNat + d else u.ten + (d - 10))

/-- The two digits of a byte. -/
def hexByte (u : HexCase) (b : UInt8) : List UInt8 :=
  [hexDigit u (b.toNat / 16), hexDigit u (b.toNat % 16)]

/-- `%` and the two digits of the byte. -/
def percentEncode (u : HexCase) (b : UInt8) : List UInt8 := '%'.toUInt8 :: hexByte u b

/-- The bytes that stand for themselves. -/
def unchanged (b : UInt8) : Bool :=
  b = '*'.toUInt8 || b = '-'.toUInt8 || b = '.'.toUInt8 || b = '_'.toUInt8 ||
    ('0'.toUInt8 ≤ b && b ≤ '9'.toUInt8) || ('A'.toUInt8 ≤ b && b ≤ 'Z'.toUInt8) ||
    ('a'.toUInt8 ≤ b && b ≤ 'z'.toUInt8)

/-- One byte of `byte_serialize`. -/
def serializeByte (b : UInt8) : List UInt8 :=
  if unchanged b then [b]
  else if b = ' '.toUInt8 then ['+'.toUInt8]
  else percentEncode .upper b

/-- `form_urlencoded::byte_serialize`. -/
def byteSerialize (bytes : List UInt8) : List UInt8 := bytes.flatMap serializeByte

/-- A name and its value, as bytes. -/
abbrev Pair := List UInt8 × List UInt8

/-- `Serializer::append_pair`, on the text written so far. -/
def appendPair (s : List UInt8) (p : Pair) : List UInt8 :=
  (if s = [] then [] else s ++ ['&'.toUInt8]) ++
    (byteSerialize p.1 ++ '='.toUInt8 :: byteSerialize p.2)

/-- `Serializer::extend_pairs`. -/
def extendPairs (s : List UInt8) (ps : List Pair) : List UInt8 := ps.foldl appendPair s

/-! ## Reading -/

/-- The value of a digit, in either case. -/
def hexVal (c : UInt8) : Option Nat :=
  if '0'.toUInt8 ≤ c ∧ c ≤ '9'.toUInt8 then some (c.toNat - '0'.toNat)
  else if 'A'.toUInt8 ≤ c ∧ c ≤ 'F'.toUInt8 then some (c.toNat - 'A'.toNat + 10)
  else if 'a'.toUInt8 ≤ c ∧ c ≤ 'f'.toUInt8 then some (c.toNat - 'a'.toNat + 10)
  else none

/-- The byte after a percent sign. -/
def hexPair (c h l : UInt8) : Option UInt8 :=
  if c = '%'.toUInt8 then do return UInt8.ofNat (16 * (← hexVal h) + (← hexVal l)) else none

/-- A percent sign without two digits stands for itself. -/
def percentDecode : List UInt8 → List UInt8
  | c :: h :: l :: cs =>
    match hexPair c h l with
    | some b => b :: percentDecode cs
    | none => c :: percentDecode (h :: l :: cs)
  | c :: cs => c :: percentDecode cs
  | [] => []

/-- `+` stands for a blank. -/
def plusToSpace (c : UInt8) : UInt8 := if c = '+'.toUInt8 then ' '.toUInt8 else c

/-- A name or a value is decoded. -/
def decode (s : List UInt8) : List UInt8 := percentDecode (s.map plusToSpace)

/-- The name ends before the first equals sign. -/
def parsePair (s : List UInt8) : Pair :=
  (decode (s.takeWhile (· ≠ '='.toUInt8)), decode ((s.dropWhile (· ≠ '='.toUInt8)).drop 1))

/-- `form_urlencoded::parse`. Nothing stands between two `&`. -/
def parse (s : List UInt8) : List Pair :=
  ((s.splitOn '&'.toUInt8).filter (· ≠ [])).map parsePair

/-! ## Spelling -/

/-- The bytes of a name or a value. -/
def InComponent (c : UInt8) : Prop := unchanged c = true ∨ c = '+'.toUInt8 ∨ c = '%'.toUInt8

/-- The bytes of a query. -/
def InQuery (c : UInt8) : Prop := InComponent c ∨ c = '='.toUInt8 ∨ c = '&'.toUInt8

/-- A text that stands for these bytes, and can stand in a name or a value. -/
structure Spells (s bytes : List UInt8) : Prop where
  inComponent : ∀ c ∈ s, InComponent c
  decode : ∀ rest, decode (s ++ rest) = bytes ++ decode rest

section Spelling

variable {s s' bytes bytes' : List UInt8} {b c : UInt8} {u : HexCase} {d : Nat}

/-- Other bytes are left as they are. -/
theorem percentDecode_cons (h : c ≠ '%'.toUInt8) (cs : List UInt8) :
    percentDecode (c :: cs) = c :: percentDecode cs := by
  cases cs with
  | nil => rfl
  | cons h' cs =>
    cases cs with
    | nil => rfl
    | cons l cs =>
      have hnone : hexPair c h' l = none := if_neg h
      rw [percentDecode, hnone]

theorem hexVal_hexDigit (u : HexCase) (hd : d < 16) : hexVal (hexDigit u d) = some d := by
  revert d
  cases u <;> decide

theorem unchanged_hexDigit (u : HexCase) (hd : d < 16) : unchanged (hexDigit u d) = true := by
  revert d
  cases u <;> decide

/-- A byte that was escaped is read back. -/
theorem percentDecode_percentEncode (u : HexCase) (b : UInt8) (cs : List UInt8) :
    percentDecode (percentEncode u b ++ cs) = b :: percentDecode cs := by
  have hb := b.toNat_lt
  have hpair : hexPair '%'.toUInt8 (hexDigit u (b.toNat / 16)) (hexDigit u (b.toNat % 16)) =
      some b := by
    unfold hexPair
    rw [if_pos rfl, hexVal_hexDigit u (by omega), hexVal_hexDigit u (by omega)]
    show some (UInt8.ofNat (16 * (b.toNat / 16) + b.toNat % 16)) = _
    rw [Nat.div_add_mod, UInt8.ofNat_toNat]
  show percentDecode ('%'.toUInt8 :: _ :: _ :: cs) = _
  rw [percentDecode, hpair]

theorem ne_of_unchanged (h : unchanged c = true) (hd : unchanged b = false) : c ≠ b := by
  intro heq
  rw [heq, hd] at h
  cases h

theorem plusToSpace_of_unchanged (h : unchanged c = true) : plusToSpace c = c :=
  if_neg (ne_of_unchanged h (by decide))

theorem Spells.nil : Spells [] [] where
  inComponent := fun c hc => by cases hc
  decode := fun _ => rfl

theorem Spells.append (h : Spells s bytes) (h' : Spells s' bytes') :
    Spells (s ++ s') (bytes ++ bytes') where
  inComponent := fun c hc => (List.mem_append.mp hc).elim (h.inComponent c) (h'.inComponent c)
  decode := fun rest => by
    rw [List.append_assoc, h.decode, h'.decode, List.append_assoc]

theorem Spells.flatMap {f : UInt8 → List UInt8} (h : ∀ b, Spells (f b) [b]) (bytes : List UInt8) :
    Spells (bytes.flatMap f) bytes := by
  induction bytes with
  | nil => exact .nil
  | cons b bytes ih => exact (h b).append ih

/-- What needs no escape stands for itself. -/
theorem spells_unchanged (h : unchanged b = true) : Spells [b] [b] where
  inComponent := fun c hc => Or.inl (List.mem_singleton.mp hc ▸ h)
  decode := fun rest => by
    show percentDecode (plusToSpace b :: rest.map plusToSpace) = _
    rw [plusToSpace_of_unchanged h, percentDecode_cons (ne_of_unchanged h (by decide))]
    rfl

/-- A text without spaces and escapes is read as it stands. -/
theorem spells_self (h : ∀ c ∈ s, unchanged c = true) : Spells s s := by
  induction s with
  | nil => exact .nil
  | cons c s ih =>
    exact (spells_unchanged (h c (List.mem_cons_self ..))).append
      (ih fun c' hc' => h c' (List.mem_cons_of_mem c hc'))

theorem spells_plus : Spells ['+'.toUInt8] [' '.toUInt8] where
  inComponent := fun c hc => Or.inr (Or.inl (List.mem_singleton.mp hc))
  decode := fun rest => percentDecode_cons (by decide) (rest.map plusToSpace)

/-- An escape stands for its byte. -/
theorem spells_percentEncode (u : HexCase) (b : UInt8) : Spells (percentEncode u b) [b] := by
  have hb := b.toNat_lt
  have hhigh := unchanged_hexDigit u (d := b.toNat / 16) (by omega)
  have hlow := unchanged_hexDigit u (d := b.toNat % 16) (by omega)
  constructor
  · intro c hc
    rcases List.mem_cons.mp hc with hc | hc
    · exact Or.inr (Or.inr hc)
    · rcases List.mem_cons.mp hc with rfl | hc
      · exact Or.inl hhigh
      · exact Or.inl (List.mem_singleton.mp hc ▸ hlow)
  · intro rest
    have hmap : (percentEncode u b).map plusToSpace = percentEncode u b := by
      show ['%'.toUInt8, plusToSpace _, plusToSpace _] = _
      rw [plusToSpace_of_unchanged hhigh, plusToSpace_of_unchanged hlow]
      rfl
    unfold FormUrl.decode
    rw [List.map_append, hmap, percentDecode_percentEncode]
    rfl

/-- A text may be written with lower-case digits throughout. -/
theorem spells_percent (u : HexCase) (bytes : List UInt8) :
    Spells (bytes.flatMap (percentEncode u)) bytes :=
  .flatMap (spells_percentEncode u) bytes

/-- What is serialized stands for its bytes. -/
theorem spells_byteSerialize (bytes : List UInt8) : Spells (byteSerialize bytes) bytes := by
  refine .flatMap (fun b => ?_) bytes
  unfold serializeByte
  split
  · next h => exact spells_unchanged h
  · split
    · next h => exact h ▸ spells_plus
    · exact spells_percentEncode .upper b

theorem Spells.decode_eq (h : Spells s bytes) : FormUrl.decode s = bytes := by
  have hrest := h.decode []
  rwa [List.append_nil, show FormUrl.decode [] = [] from rfl, List.append_nil] at hrest

theorem InComponent.ne_amp (h : InComponent c) : c ≠ '&'.toUInt8 := by
  rcases h with h | rfl | rfl
  · exact ne_of_unchanged h (by decide)
  · decide
  · decide

theorem InComponent.ne_equals (h : InComponent c) : c ≠ '='.toUInt8 := by
  rcases h with h | rfl | rfl
  · exact ne_of_unchanged h (by decide)
  · decide
  · decide

end Spelling

/-! ## Pairs -/

section Pairs

variable {s s' k v name value : List UInt8}

theorem splitOn_join (s s' : List UInt8) : (s ++ '&'.toUInt8 :: s').splitOn '&'.toUInt8 =
    s.splitOn '&'.toUInt8 ++ s'.splitOn '&'.toUInt8 := List.splitOn_append_cons_self s s'

/-- Two queries, with an ampersand between them. -/
theorem parse_join (s s' : List UInt8) : parse (s ++ '&'.toUInt8 :: s') = parse s ++ parse s' := by
  unfold parse
  rw [splitOn_join, List.filter_append, List.map_append]

theorem parse_pair (hk : Spells k name) (hv : Spells v value) :
    parse (k ++ '='.toUInt8 :: v) = [(name, value)] := by
  have hname : ∀ c ∈ k, decide (c ≠ '='.toUInt8) = true := fun c hc =>
    decide_eq_true (hk.inComponent c hc).ne_equals
  have hamp : '&'.toUInt8 ∉ k ++ '='.toUInt8 :: v := by
    intro h
    rcases List.mem_append.mp h with h | h
    · exact (hk.inComponent _ h).ne_amp rfl
    · rcases List.mem_cons.mp h with h | h
      · exact absurd h (by decide)
      · exact (hv.inComponent _ h).ne_amp rfl
  have hne : k ++ '='.toUInt8 :: v ≠ [] := fun h => by
    cases (List.append_eq_nil_iff.mp h).2
  have hpair : parsePair (k ++ '='.toUInt8 :: v) = (name, value) := by
    unfold parsePair
    rw [List.takeWhile_append_of_pos hname, List.dropWhile_append_of_pos hname]
    show (decode (k ++ []), decode v) = _
    rw [List.append_nil, hk.decode_eq, hv.decode_eq]
  have hfilter : [k ++ '='.toUInt8 :: v].filter (· ≠ []) = [k ++ '='.toUInt8 :: v] :=
    List.filter_eq_self.mpr fun s hs => decide_eq_true (List.mem_singleton.mp hs ▸ hne)
  unfold parse
  rw [List.splitOn_eq_singleton hamp, hfilter]
  exact congrArg (fun p => [p]) hpair

/-- One pair more is parsed as one pair more. -/
theorem parse_appendPair (s : List UInt8) (p : Pair) : parse (appendPair s p) = parse s ++ [p] := by
  have hpair : parse (byteSerialize p.1 ++ '='.toUInt8 :: byteSerialize p.2) = [p] :=
    parse_pair (spells_byteSerialize p.1) (spells_byteSerialize p.2)
  unfold appendPair
  by_cases hs : s = []
  · rw [if_pos hs, hs]
    exact hpair
  · rw [if_neg hs, List.append_assoc, List.singleton_append, parse_join, hpair]

theorem inQuery_pair (hk : Spells k name) (hv : Spells v value) :
    ∀ c ∈ k ++ '='.toUInt8 :: v, InQuery c := by
  intro c hc
  rcases List.mem_append.mp hc with hc | hc
  · exact Or.inl (hk.inComponent c hc)
  · rcases List.mem_cons.mp hc with rfl | hc
    · exact Or.inr (Or.inl rfl)
    · exact Or.inl (hv.inComponent c hc)

/-- One pair more can stand in a query. -/
theorem inQuery_appendPair (hs : ∀ c ∈ s, InQuery c) (p : Pair) :
    ∀ c ∈ appendPair s p, InQuery c := by
  have hpair := inQuery_pair (spells_byteSerialize p.1) (spells_byteSerialize p.2)
  intro c hc
  rcases List.mem_append.mp hc with hc | hc
  · split at hc
    · cases hc
    · rcases List.mem_append.mp hc with hc | hc
      · exact hs c hc
      · exact Or.inr (Or.inr (List.mem_singleton.mp hc))
  · exact hpair c hc

theorem inQuery_extendPairs (hs : ∀ c ∈ s, InQuery c) (ps : List Pair) :
    ∀ c ∈ extendPairs s ps, InQuery c := by
  induction ps generalizing s with
  | nil => exact hs
  | cons p ps ih => exact ih (inQuery_appendPair hs p)

/-- **What the serializer writes is read as it was.** -/
theorem parse_extendPairs (s : List UInt8) (ps : List Pair) :
    parse (extendPairs s ps) = parse s ++ ps := by
  induction ps generalizing s with
  | nil => exact (List.append_nil _).symm
  | cons p ps ih =>
    show parse (extendPairs (appendPair s p) ps) = _
    rw [ih, parse_appendPair, List.append_assoc, List.singleton_append]

end Pairs

end BitTorrent.FormUrl
