import BitTorrent.Bencode.Grammar

/-!
# The decoder built from combinators (`bencode/nom.rs`)

`decode` and the parsers of its four alternatives, written with the combinators of
`Lib.Nom` as the source is with those of `nom`. `list` and `dict` take the decoder
that they repeat as a parameter, `self`. `decode` ties the knot with as much
fuel as the input is long, and that is always enough: it is `body decode`
(`decode_eq`), which is how the source defines it.

It reads the grammar, and all of it: `decode_eq_ok`. One half goes by the rules of
`Sound`, the other by those of `Complete`, each applied along `body`. The second
one needs that no value begins with an `e` (`fails_at_end`), so that the repetition
in a list or a dictionary stops where that ends, and not before.

Mirroring notes:

* numbers are read by `Lib.Numerals`, those of `str::parse` and those of the `i64`
  of `nom` alike;
* the kinds of error that the decoder cannot give are left out, and an error is
  passed on as it is. The text that the program prints of it is not made;
* the recursion is not bounded in the source. A deep input may overflow the stack
  there, which the model does not have.
-/

namespace BitTorrent.Bencode.Nom

open BitTorrent.Nom

/-- `parse_len_str`: the digits in front of the colon. -/
def parseLenStr : Parser UInt8 String := terminated (mapRes digit1 fromUtf8) (char ':'.toUInt8)

/-- `parse_len_u64`. -/
def parseLenU64 : Parser UInt8 Nat := mapRes parseLenStr fun s => parseU64 (asBytes s)

/-- `string`: the length, and as many bytes read as UTF-8, lossily. -/
def string : Parser UInt8 String := fun input =>
  match parseLenU64 input with
  | .ok (input, len) => map (take len) fromUtf8Lossy input
  | .error e => .error e

/-- `integer`. -/
def integer : Parser UInt8 Int := delimited (char 'i'.toUInt8) i64 (char 'e'.toUInt8)

section Body

variable (self : Parser UInt8 Value)

/-- `list`, over the decoder of the elements. -/
def list : Parser UInt8 (List Value) :=
  delimited (char 'l'.toUInt8) (many0 self) (char 'e'.toUInt8)

/-- `dict`, over the decoder of the values. The entries are folded into a
`BTreeMap`. -/
def dict : Parser UInt8 (List (String × Value)) :=
  delimited (char 'd'.toUInt8) (foldMany0 (pair string self) [] btreeInsert) (char 'e'.toUInt8)

/-- The body of `decode`. -/
def body : Parser UInt8 Value :=
  alt [map integer .int, map string .string, map (list self) .list, map (dict self) .map]

end Body

/-- `decode` with a bound on the nesting. Without fuel it fails; `decode` has
enough. -/
def decodeAt : Nat → Parser UInt8 Value
  | 0, input => .error ⟨input, .alt⟩
  | fuel + 1, input => body (decodeAt fuel) input

/-- `decode`. An input is nested no deeper than it is long. -/
def decode : Parser UInt8 Value := fun input => decodeAt (input.length + 1) input

/-! ## Strings and integers -/

/-- A length is digits and a colon, and less than `2 ^ 64`. -/
theorem parseLenU64_eq_ok {input rest : List UInt8} {n : Nat} :
    parseLenU64 input = .ok (rest, n) ↔
      ∃ ds, input = ds ++ ':'.toUInt8 :: rest ∧ Digits ds n ∧ n < 2 ^ 64 := by
  unfold parseLenU64 parseLenStr
  simp only [mapRes_eq_ok, terminated_eq_ok, digit1_eq_ok, char_eq_ok, fromUtf8_eq_ok]
  constructor
  · intro h
    obtain ⟨t, ⟨_, _, ⟨ds, ⟨rfl, ⟨hne, hdigit⟩, -⟩, rfl⟩, rfl, -⟩, hn⟩ := h
    rw [parseU64_eq_ok fun c hc => hdigit c (List.mem_of_mem_head? hc)] at hn
    exact ⟨asBytes t, rfl, hn⟩
  · intro h
    obtain ⟨ds, rfl, hds, hlt⟩ := h
    -- the colon ends the digits, and they are a text
    obtain ⟨t, ht⟩ := fromUtf8_ascii fun c hc => by
      have := (hds.digit c hc).2
      omega
    rw [fromUtf8_eq_ok] at ht
    refine ⟨t, ⟨':'.toUInt8 :: rest, _, ⟨ds, ⟨rfl, ⟨hds.ne_nil, hds.digit⟩, ?_⟩, ht⟩, rfl, rfl⟩, ?_⟩
    · intro c hc
      cases hc
      decide
    · rw [ht, parseU64_eq_ok fun c hc => hds.digit c (List.mem_of_mem_head? hc)]
      exact ⟨hds, hlt⟩

/-- `string` takes a string of the grammar off the front, and nothing else. -/
theorem string_eq_ok {input rest : List UInt8} {s : String} :
    string input = .ok (rest, s) ↔ ∃ p, input = p ++ rest ∧ DerivesString p s := by
  unfold string
  constructor
  · intro h
    cases hlen : parseLenU64 input with
    | error e =>
      rw [hlen] at h
      cases h
    | ok r =>
      obtain ⟨mid, len⟩ := r
      rw [hlen] at h
      obtain ⟨bytes, htake, rfl⟩ := map_eq_ok.mp h
      obtain ⟨rfl, rfl⟩ := take_eq_ok.mp htake
      obtain ⟨ds, rfl, hds, hlt⟩ := parseLenU64_eq_ok.mp hlen
      exact ⟨ds ++ ':'.toUInt8 :: bytes, by simp, .mk hds hlt⟩
  · intro hq
    obtain ⟨p, rfl, hp⟩ := hq
    cases hp with
    | @mk ds bytes hds hlt =>
      have hlen : parseLenU64 (ds ++ ':'.toUInt8 :: bytes ++ rest) =
          .ok (bytes ++ rest, bytes.length) :=
        parseLenU64_eq_ok.mpr ⟨ds, by simp, hds, hlt⟩
      rw [hlen]
      exact map_eq_ok.mpr ⟨bytes, take_eq_ok.mpr ⟨rfl, rfl⟩, rfl⟩

/-- `integer` takes an integer of the grammar off the front, and nothing else. -/
theorem integer_eq_ok {input rest : List UInt8} {n : Int} :
    integer input = .ok (rest, n) ↔
      ∃ ds, input = 'i'.toUInt8 :: (ds ++ 'e'.toUInt8 :: rest) ∧ SignedDigits ds n ∧
        -2 ^ 63 ≤ n ∧ n < 2 ^ 63 := by
  unfold integer
  simp only [delimited_eq_ok, char_eq_ok, i64_eq_ok]
  constructor
  · intro h
    obtain ⟨_, _, _, _, ⟨rfl, -⟩, ⟨⟨ds, rfl, hds⟩, hn, -⟩, rfl, -⟩ := h
    exact ⟨ds, rfl, hds, hn⟩
  · intro h
    obtain ⟨ds, rfl, hds, hn⟩ := h
    refine ⟨_, _, _, _, ⟨rfl, rfl⟩, ⟨⟨ds, rfl, hds⟩, hn, ?_⟩, rfl, rfl⟩
    intro c hc
    cases hc
    decide

/-! ## The alternatives -/

section Alternatives

variable {self : Parser UInt8 Value} {input rest : List UInt8}

/-- `list` takes values off behind the `l`, and then the `e`. -/
theorem list_eq_ok {vs : List Value} :
    list self input = .ok (rest, vs) ↔
      ∃ tl, input = 'l'.toUInt8 :: tl ∧ many0 self tl = .ok ('e'.toUInt8 :: rest, vs) := by
  unfold list
  simp only [delimited_eq_ok, char_eq_ok]
  constructor
  · intro h
    obtain ⟨tl, _, _, _, ⟨rfl, -⟩, hvs, rfl, -⟩ := h
    exact ⟨tl, rfl, hvs⟩
  · intro h
    obtain ⟨tl, rfl, hvs⟩ := h
    exact ⟨tl, _, _, _, ⟨rfl, rfl⟩, hvs, rfl, rfl⟩

/-- `dict` takes entries off behind the `d`, and then the `e`. -/
theorem dict_eq_ok {entries : List (String × Value)} :
    dict self input = .ok (rest, entries) ↔
      ∃ tl, input = 'd'.toUInt8 :: tl ∧
        foldMany0 (pair string self) [] btreeInsert tl = .ok ('e'.toUInt8 :: rest, entries) := by
  unfold dict
  simp only [delimited_eq_ok, char_eq_ok]
  constructor
  · intro h
    obtain ⟨tl, _, _, _, ⟨rfl, -⟩, hvs, rfl, -⟩ := h
    exact ⟨tl, rfl, hvs⟩
  · intro h
    obtain ⟨tl, rfl, hvs⟩ := h
    exact ⟨tl, _, _, _, ⟨rfl, rfl⟩, hvs, rfl, rfl⟩

/-- What a value of each kind begins with. -/
theorem integer_head {n : Int} (h : integer input = .ok (rest, n)) :
    ∃ tl, input = 'i'.toUInt8 :: tl := by
  obtain ⟨ds, rfl, -⟩ := integer_eq_ok.mp h
  exact ⟨_, rfl⟩

theorem string_head {s : String} (h : string input = .ok (rest, s)) :
    ∃ c tl, input = c :: tl ∧ IsDigit c := by
  obtain ⟨p, rfl, hp⟩ := string_eq_ok.mp h
  obtain ⟨c, cs, rfl, hc⟩ := hp.head
  exact ⟨c, cs ++ rest, rfl, hc⟩

/-- The alternatives exclude each other, so their order does not matter. -/
theorem body_eq_ok {v : Value} :
    body self input = .ok (rest, v) ↔
      (∃ n, integer input = .ok (rest, n) ∧ .int n = v) ∨
      (∃ s, string input = .ok (rest, s) ∧ .string s = v) ∨
      (∃ vs, list self input = .ok (rest, vs) ∧ .list vs = v) ∨
      (∃ entries, dict self input = .ok (rest, entries) ∧ .map entries = v) := by
  have hnil {f : Parser UInt8 Value} {fs : List (Parser UInt8 Value)} : f :: fs ≠ [] :=
    List.cons_ne_nil f fs
  unfold body
  rw [alt_eq_ok hnil, alt_eq_ok hnil, alt_eq_ok hnil]
  simp only [alt, map_eq_ok]
  constructor
  · intro hcases
    rcases hcases with h | ⟨-, h | ⟨-, h | ⟨-, h⟩⟩⟩
    · exact Or.inl h
    · exact Or.inr (Or.inl h)
    · exact Or.inr (Or.inr (Or.inl h))
    · exact Or.inr (Or.inr (Or.inr h))
  · -- an earlier alternative fails at the byte that begins a later one
    have hint {c : UInt8} {tl : List UInt8} (hin : input = c :: tl) (hc : c ≠ 'i'.toUInt8) :
        Fails (map integer Value.int) input := by
      refine fails_iff.mpr fun r v h => ?_
      obtain ⟨n, hn, -⟩ := map_eq_ok.mp h
      obtain ⟨tl', hin'⟩ := integer_head hn
      exact hc (List.cons.inj (hin.symm.trans hin')).1
    have hstr {c : UInt8} {tl : List UInt8} (hin : input = c :: tl) (hc : ¬ IsDigit c) :
        Fails (map string Value.string) input := by
      refine fails_iff.mpr fun r v h => ?_
      obtain ⟨s, hs, -⟩ := map_eq_ok.mp h
      obtain ⟨c', tl', hin', hc'⟩ := string_head hs
      exact hc ((List.cons.inj (hin.symm.trans hin')).1 ▸ hc')
    intro hcases
    rcases hcases with h | h | h | h
    · exact Or.inl h
    · obtain ⟨s, hs, hv⟩ := h
      obtain ⟨c, tl, hin, hc⟩ := string_head hs
      exact Or.inr ⟨hint hin fun hi => absurd (hi ▸ hc) (by decide), Or.inl ⟨s, hs, hv⟩⟩
    · obtain ⟨vs, hvs, hv⟩ := h
      obtain ⟨tl, hin, -⟩ := list_eq_ok.mp hvs
      exact Or.inr ⟨hint hin (by decide), Or.inr ⟨hstr hin (by decide), Or.inl ⟨vs, hvs, hv⟩⟩⟩
    · obtain ⟨entries, he, hv⟩ := h
      obtain ⟨tl, hin, -⟩ := dict_eq_ok.mp he
      refine Or.inr ⟨hint hin (by decide),
        Or.inr ⟨hstr hin (by decide), Or.inr ⟨?_, entries, he, hv⟩⟩⟩
      refine fails_iff.mpr fun r v h => ?_
      obtain ⟨vs, hvs, -⟩ := map_eq_ok.mp h
      obtain ⟨tl', hin', -⟩ := list_eq_ok.mp hvs
      exact absurd (List.cons.inj (hin.symm.trans hin')).1 (by decide)

end Alternatives

/-! ## The decoder and its grammar -/

section Grammar

variable {self : Parser UInt8 Value}

theorem string_sound : Sound DerivesString string := ⟨fun h => string_eq_ok.mp h⟩

theorem string_complete (n : Nat) : Complete n DerivesString string :=
  ⟨fun hp _ _ => string_eq_ok.mpr ⟨_, rfl, hp⟩⟩

/-- The byte that ends a list begins no value. -/
theorem fails_at_end (h : Sound Derives self) (s : List UInt8) : Fails self ('e'.toUInt8 :: s) := by
  refine h.fails fun hp hin => ?_
  obtain ⟨c, cs, rfl, hc⟩ := hp.head
  exact hc (List.cons.inj hin).1.symm

/-- Nor a key. -/
theorem entry_fails_at_end (h : Sound Derives self) (s : List UInt8) :
    Fails (pair string self) ('e'.toUInt8 :: s) := by
  refine (string_sound.pair h).fails fun hp hin => ?_
  cases hp with
  | mk hk hv =>
    obtain ⟨c, cs, rfl, hc⟩ := hk.head
    exact absurd ((List.cons.inj hin).1 ▸ hc) (by decide)

/-- No entry of a dictionary is empty. -/
theorem entry_ne_nil {kv : String × Value} : ¬ Concat DerivesString Derives [] kv := by
  intro h
  generalize hp : ([] : List UInt8) = p at h
  cases h with
  | mk hk hv =>
    obtain ⟨c, cs, rfl, -⟩ := hk.head
    cases hp

/-- One level of the decoder is sound, if the level below is. -/
theorem body_sound (h : Sound Derives self) : Sound Derives (body self) := by
  refine ⟨fun {input rest v} hv => ?_⟩
  rcases body_eq_ok.mp hv with ⟨n, hn, rfl⟩ | ⟨s, hs, rfl⟩ | ⟨vs, hvs, rfl⟩ | ⟨entries, he, rfl⟩
  · obtain ⟨ds, rfl, hds, hrange⟩ := integer_eq_ok.mp hn
    exact ⟨_, by simp, .int hds hrange⟩
  · obtain ⟨p, rfl, hp⟩ := string_eq_ok.mp hs
    exact ⟨p, rfl, .string hp⟩
  · obtain ⟨tl, rfl, hmany⟩ := list_eq_ok.mp hvs
    obtain ⟨p, rfl, hp⟩ := h.many0.split hmany
    exact ⟨_, by simp, .list hp⟩
  · obtain ⟨tl, rfl, hfold⟩ := dict_eq_ok.mp he
    obtain ⟨p, kvs, rfl, hp, rfl⟩ := (string_sound.pair h).foldMany0 [] hfold
    exact ⟨_, by simp, .dict hp⟩

/-- One level of the decoder is complete for one byte more than the level below. -/
theorem body_complete {n : Nat} (hs : Sound Derives self) (hc : Complete n Derives self) :
    Complete (n + 1) Derives (body self) := by
  refine ⟨fun {p v} hp hlen s => ?_⟩
  rw [body_eq_ok]
  cases hp with
  | @int ds n hds hn => exact Or.inl ⟨n, integer_eq_ok.mpr ⟨ds, by simp, hds, hn⟩, rfl⟩
  | @string p t ht => exact Or.inr (Or.inl ⟨t, string_eq_ok.mpr ⟨p, rfl, ht⟩, rfl⟩)
  | @list p vs hvs =>
    simp only [List.length_cons, List.length_append] at hlen
    refine Or.inr (Or.inr (Or.inl ⟨vs, list_eq_ok.mpr ⟨p ++ 'e'.toUInt8 :: s, by simp, ?_⟩, rfl⟩))
    exact hc.many0 Derives.ne_nil hvs (by omega) (fails_at_end hs s)
  | @dict p kvs hkvs =>
    simp only [List.length_cons, List.length_append] at hlen
    refine Or.inr (Or.inr (Or.inr ⟨_, dict_eq_ok.mpr ⟨p ++ 'e'.toUInt8 :: s, by simp, ?_⟩, rfl⟩))
    exact ((string_complete n).pair hc).foldMany0 entry_ne_nil hkvs (by omega)
      (entry_fails_at_end hs s) []

theorem decodeAt_sound (fuel : Nat) : Sound Derives (decodeAt fuel) := by
  induction fuel with
  | zero => exact ⟨fun h => by cases h⟩
  | succ fuel ih => exact body_sound ih

/-- The decoder is complete for inputs no longer than its fuel. -/
theorem decodeAt_complete (fuel : Nat) : Complete fuel Derives (decodeAt fuel) := by
  induction fuel with
  | zero =>
    refine ⟨fun {p v} hp hlen => ?_⟩
    rw [List.length_eq_zero_iff.mp (Nat.le_zero.mp hlen)] at hp
    exact absurd hp Derives.ne_nil
  | succ fuel ih => exact body_complete (decodeAt_sound fuel) ih

theorem decode_sound : Sound Derives decode := ⟨fun h => (decodeAt_sound _).split h⟩

theorem decode_complete (n : Nat) : Complete n Derives decode :=
  ⟨fun hp _ s => (decodeAt_complete _).reads hp (by simp only [List.length_append]; omega) s⟩

end Grammar

/-! ## Enough fuel -/

section Fuel

variable {self self' : Parser UInt8 Value} {input : List UInt8}

/-- One level of the decoder uses the level below on shorter inputs only. -/
theorem body_congr (h : ∀ i, i.length < input.length → self i = self' i) :
    body self input = body self' input := by
  -- `list` and `dict` take a byte before they go on with the decoder
  have hchar {c t : UInt8} {mid i : List UInt8} (hmid : char c input = .ok (mid, t))
      (hi : i.length ≤ mid.length) : self i = self' i := by
    obtain ⟨rfl, -⟩ := char_eq_ok.mp hmid
    exact h i (Nat.lt_succ_of_le hi)
  have hlist : list self input = list self' input :=
    delimited_congr fun {mid a} hmid =>
      foldMany0_congr (n := mid.length) (fun i hi => hchar hmid hi) [] mid (Nat.le_refl _)
  have hdict : dict self input = dict self' input := by
    refine delimited_congr fun {mid a} hmid => ?_
    refine foldMany0_congr (n := mid.length) (fun i hi => ?_) [] mid (Nat.le_refl _)
    refine pair_congr fun {mid' k} hk => hchar hmid ?_
    obtain ⟨p, rfl, -⟩ := string_eq_ok.mp hk
    rw [List.length_append] at hi
    omega
  exact alt_congr (.cons rfl (.cons rfl (.cons (map_congr hlist) (.cons (map_congr hdict) .nil))))

/-- The fuel does not matter when there is enough. -/
theorem decodeAt_congr : ∀ (fuel fuel' : Nat) (input : List UInt8), input.length < fuel →
    input.length < fuel' → decodeAt fuel input = decodeAt fuel' input := by
  intro fuel
  induction fuel with
  | zero => exact fun fuel' input h => absurd h (Nat.not_lt_zero _)
  | succ fuel ih =>
    intro fuel' input hlt hlt'
    cases fuel' with
    | zero => exact absurd hlt' (Nat.not_lt_zero _)
    | succ fuel' => exact body_congr fun i hi => ih fuel' i (by omega) (by omega)

/-- The definition of `decode` in the source. -/
theorem decode_eq (input : List UInt8) : decode input = body decode input :=
  body_congr fun i hi => decodeAt_congr input.length (i.length + 1) i hi (Nat.lt_succ_self _)

end Fuel

/-- **The decoder reads the grammar, and nothing else.** -/
theorem decode_eq_ok {input rest : List UInt8} {v : Value} :
    decode input = .ok (rest, v) ↔ ∃ p, input = p ++ rest ∧ Derives p v := by
  constructor
  · exact decode_sound.split
  · intro h
    obtain ⟨p, rfl, hp⟩ := h
    exact (decode_complete p.length).reads hp (Nat.le_refl _) rest

/-- `decode` returns a string where `string` does. -/
theorem decode_eq_string {input rest : List UInt8} {s : String} :
    decode input = .ok (rest, .string s) ↔ string input = .ok (rest, s) := by
  rw [decode_eq_ok, string_eq_ok]
  constructor
  · intro h
    obtain ⟨p, rfl, hp⟩ := h
    cases hp with
    | string hs => exact ⟨p, rfl, hs⟩
  · intro h
    obtain ⟨p, rfl, hp⟩ := h
    exact ⟨p, rfl, .string hp⟩

/-- A value takes at least a byte. -/
theorem decode_lt {input rest : List UInt8} {v : Value} (h : decode input = .ok (rest, v)) :
    rest.length < input.length := by
  obtain ⟨p, rfl, hp⟩ := decode_eq_ok.mp h
  have hpos : 0 < p.length := List.length_pos_iff.mpr fun hnil => Derives.ne_nil (hnil ▸ hp)
  rw [List.length_append]
  omega

/-! ## The first byte chooses the alternative -/

section FirstByte

variable {c : UInt8} {tl rest : List UInt8} {v : Value}

/-- Behind a digit, `decode` is `string`. -/
theorem decode_digit (hc : IsDigit c) : decode (c :: tl) = .ok (rest, v) ↔
    ∃ s, string (c :: tl) = .ok (rest, s) ∧ .string s = v := by
  rw [decode_eq, body_eq_ok]
  refine ⟨?_, fun h => Or.inr (Or.inl h)⟩
  intro hcases
  rcases hcases with ⟨n, h, -⟩ | h | ⟨vs, h, -⟩ | ⟨entries, h, -⟩
  · obtain ⟨_, h⟩ := integer_head h
    exact absurd ((List.cons.inj h).1 ▸ hc) (by decide)
  · exact h
  · obtain ⟨_, h, -⟩ := list_eq_ok.mp h
    exact absurd ((List.cons.inj h).1 ▸ hc) (by decide)
  · obtain ⟨_, h, -⟩ := dict_eq_ok.mp h
    exact absurd ((List.cons.inj h).1 ▸ hc) (by decide)

/-- A byte that is no digit and none of the three letters begins no value. -/
theorem decode_not_digit (hc : ¬ IsDigit c) : decode (c :: tl) = .ok (rest, v) ↔
    (∃ n, integer (c :: tl) = .ok (rest, n) ∧ .int n = v) ∨
    (∃ vs, list decode (c :: tl) = .ok (rest, vs) ∧ .list vs = v) ∨
    ∃ entries, dict decode (c :: tl) = .ok (rest, entries) ∧ .map entries = v := by
  rw [decode_eq, body_eq_ok]
  constructor
  · intro hcases
    rcases hcases with h | ⟨s, h, -⟩ | h
    · exact Or.inl h
    · obtain ⟨_, _, h, hd⟩ := string_head h
      exact absurd ((List.cons.inj h).1 ▸ hd) hc
    · exact Or.inr h
  · exact fun h => h.imp_right Or.inr

/-- Behind an `i`, `decode` is `integer`. -/
theorem decode_int : decode ('i'.toUInt8 :: tl) = .ok (rest, v) ↔
    ∃ n, integer ('i'.toUInt8 :: tl) = .ok (rest, n) ∧ .int n = v := by
  rw [decode_not_digit (by decide)]
  refine ⟨?_, Or.inl⟩
  intro hcases
  rcases hcases with h | ⟨vs, h, -⟩ | ⟨entries, h, -⟩
  · exact h
  · obtain ⟨_, h, -⟩ := list_eq_ok.mp h
    exact absurd (List.cons.inj h).1 (by decide)
  · obtain ⟨_, h, -⟩ := dict_eq_ok.mp h
    exact absurd (List.cons.inj h).1 (by decide)

/-- Behind an `l`, `decode` repeats itself up to an `e`. -/
theorem decode_list : decode ('l'.toUInt8 :: tl) = .ok (rest, v) ↔
    ∃ vs, many0 decode tl = .ok ('e'.toUInt8 :: rest, vs) ∧ .list vs = v := by
  rw [decode_not_digit (by decide)]
  constructor
  · intro hcases
    rcases hcases with ⟨n, h, -⟩ | ⟨vs, h, rfl⟩ | ⟨entries, h, -⟩
    · obtain ⟨_, h⟩ := integer_head h
      exact absurd (List.cons.inj h).1 (by decide)
    · obtain ⟨tl', htl, h⟩ := list_eq_ok.mp h
      cases htl
      exact ⟨vs, h, rfl⟩
    · obtain ⟨_, h, -⟩ := dict_eq_ok.mp h
      exact absurd (List.cons.inj h).1 (by decide)
  · intro hp
    obtain ⟨vs, h, rfl⟩ := hp
    exact Or.inr (Or.inl ⟨vs, list_eq_ok.mpr ⟨tl, rfl, h⟩, rfl⟩)

/-- Behind a `d`, `decode` repeats `string` and itself up to an `e`. -/
theorem decode_dict : decode ('d'.toUInt8 :: tl) = .ok (rest, v) ↔
    ∃ entries, foldMany0 (pair string decode) [] btreeInsert tl =
      .ok ('e'.toUInt8 :: rest, entries) ∧ .map entries = v := by
  rw [decode_not_digit (by decide)]
  constructor
  · intro hcases
    rcases hcases with ⟨n, h, -⟩ | ⟨vs, h, -⟩ | ⟨entries, h, rfl⟩
    · obtain ⟨_, h⟩ := integer_head h
      exact absurd (List.cons.inj h).1 (by decide)
    · obtain ⟨_, h, -⟩ := list_eq_ok.mp h
      exact absurd (List.cons.inj h).1 (by decide)
    · obtain ⟨tl', htl, h⟩ := dict_eq_ok.mp h
      cases htl
      exact ⟨entries, h, rfl⟩
  · intro hp
    obtain ⟨entries, h, rfl⟩ := hp
    exact Or.inr (Or.inr ⟨entries, dict_eq_ok.mpr ⟨tl, rfl, h⟩, rfl⟩)

end FirstByte

end BitTorrent.Bencode.Nom
