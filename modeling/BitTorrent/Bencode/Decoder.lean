import BitTorrent.Bencode.Plain

/-!
# One outcome from two decoders (`Decoder::decode`)

What the plain decoder reads, the other reads too, and where it returns an error
the other does (`decodeAt_matches`). It panics where the other goes on or gives
up, and `Trips` says on what bytes, by the grammar alone: on a byte that begins
no value, on a string longer than what is left, and on a key that is no string,
wherever it looks for a value. It looks for one after the `l` or `d` of an empty
list or dictionary too. The decoders agree everywhere else.

`Matches` is what the two have in common at one position of the input. It is
proved for strings and integers first (`string_matches`, `integer_matches`), where
the plain decoder searches what is left for the end and the other reads up to it:
what stands between has to be a number, so both stop at the same byte. Lists and
dictionaries then follow by induction on the fuel, with one rule for each loop.

The errors of the two decoders have different texts, and one of them is an error
of `nom`. "The same outcome" is the same value and rest, or an error in both.
-/

namespace BitTorrent.Bencode

open BitTorrent.Nom

/-- `Decoder`: the implementation that the command is asked for. -/
inductive Decoder
  | nom
  | plain
  deriving DecidableEq, Repr

/-- `Decoder::decode`. An error of `nom` is wrapped, one of `plain` is passed on. -/
def Decoder.decode (decoder : Decoder) (input : List UInt8) : Decoded (List UInt8 × Value) :=
  match decoder with
  | nom =>
    match Nom.decode input with
    | .ok res => .ok res
    | .error err => .err (.nom err)
  | plain => Plain.decode input

/-- Both decoders return the same value and the same rest, or both return an error. -/
def DecodersAgree (input : List UInt8) : Prop :=
  (∃ r, Nom.decode input = .ok r ∧ Plain.decode input = .ok r) ∨
  (∃ e e', Nom.decode input = .error e ∧ Plain.decode input = .err e')

/-- The user gets the same value and the same rest, or an error, from both. -/
def SameOutcome (input : List UInt8) : Prop :=
  (∃ r, ∀ d : Decoder, d.decode input = .ok r) ∨ ∀ d : Decoder, ∃ e, d.decode input = .err e

mutual

/-- Bytes on which the plain decoder cannot go on. -/
inductive Trips : List UInt8 → Prop
  | other {c : UInt8} {bytes : List UInt8} (hdigit : ¬ IsDigit c) (hi : c ≠ 'i'.toUInt8)
      (hl : c ≠ 'l'.toUInt8) (hd : c ≠ 'd'.toUInt8) : Trips (c :: bytes)
  | string {ds bytes : List UInt8} {n : Nat} (hds : Digits ds n) (hn : n < 2 ^ 64)
      (hshort : bytes.length < n) : Trips (ds ++ ':'.toUInt8 :: bytes)
  | list {bytes : List UInt8} (h : TripsList bytes) : Trips ('l'.toUInt8 :: bytes)
  | dict {bytes : List UInt8} (h : TripsDict bytes) : Trips ('d'.toUInt8 :: bytes)

/-- An element comes first, whatever it begins with. -/
inductive TripsList : List UInt8 → Prop
  | elem {bytes : List UInt8} (h : Trips bytes) : TripsList bytes
  | next {p bytes : List UInt8} {v : Value} (hv : Derives p v)
      (hmore : bytes.head? ≠ some 'e'.toUInt8) (h : TripsList bytes) : TripsList (p ++ bytes)

/-- A key comes first, whatever it begins with, and then a value. -/
inductive TripsDict : List UInt8 → Prop
  | key {bytes : List UInt8} (h : Trips bytes) : TripsDict bytes
  | keyKind {p bytes : List UInt8} {v : Value} (hv : Derives p v) (hkind : ∀ s, v ≠ .string s) :
      TripsDict (p ++ bytes)
  | value {p bytes : List UInt8} {s : String} (hk : DerivesString p s) (h : Trips bytes) :
      TripsDict (p ++ bytes)
  | next {p q bytes : List UInt8} {s : String} {v : Value} (hk : DerivesString p s)
      (hv : Derives q v) (hmore : bytes.head? ≠ some 'e'.toUInt8) (h : TripsDict bytes) :
      TripsDict (p ++ (q ++ bytes))

end

/-! ## What the plain decoder returns -/

/-- How `outcome` compares with what the other decoder makes of `bytes`. -/
def Matches (bytes : List UInt8) : Decoded (List UInt8 × Value) → Prop
  | .ok r => Nom.decode bytes = .ok r
  | .err _ => Fails Nom.decode bytes
  | .panicked _ => Trips bytes
  | .unfinished => False

/-- The same for the rest of a list, after the elements `list`. -/
def MatchesList (bytes : List UInt8) (list : List Value) : Decoded (List UInt8 × Value) → Prop
  | .ok (rest, v) => ∃ vs, foldMany0 Nom.decode list (fun acc a => acc ++ [a]) bytes =
      .ok ('e'.toUInt8 :: rest, vs) ∧ .list vs = v
  | .err _ => ∀ rest vs, foldMany0 Nom.decode list (fun acc a => acc ++ [a]) bytes ≠
      .ok ('e'.toUInt8 :: rest, vs)
  | .panicked _ => TripsList bytes
  | .unfinished => False

/-- And for the rest of a dictionary, after the entries `map`. -/
def MatchesDict (bytes : List UInt8) (map : List (String × Value)) :
    Decoded (List UInt8 × Value) → Prop
  | .ok (rest, v) => ∃ entries, foldMany0 (pair Nom.string Nom.decode) map btreeInsert bytes =
      .ok ('e'.toUInt8 :: rest, entries) ∧ .map entries = v
  | .err _ => ∀ rest entries, foldMany0 (pair Nom.string Nom.decode) map btreeInsert bytes ≠
      .ok ('e'.toUInt8 :: rest, entries)
  | .panicked _ => TripsDict bytes
  | .unfinished => False

section Leaves

variable {c : UInt8} {bytes : List UInt8}

/-- No digit is a colon. -/
theorem colon_not_mem {ds : List UInt8} {n : Nat} (h : Digits ds n) : ':'.toUInt8 ∉ ds :=
  h.not_mem (by decide)

/-- Digits are UTF-8, so a length is never refused for its encoding. -/
theorem fromUtf8_digits {ds : List UInt8} {n : Nat} (h : Digits ds n) :
    ∃ s, fromUtf8 ds = .ok s :=
  fromUtf8_ascii fun c hc => by
    have := (h.digit c hc).2
    omega

/-- The text before the first colon is the only length there can be. -/
theorem parseLenU64_append {a b rest : List UInt8} {n : Nat} (ha : ':'.toUInt8 ∉ a) :
    Nom.parseLenU64 (a ++ ':'.toUInt8 :: b) = .ok (rest, n) ↔
      b = rest ∧ Digits a n ∧ n < 2 ^ 64 := by
  rw [Nom.parseLenU64_eq_ok]
  constructor
  · intro h
    obtain ⟨ds, hin, hds, hn⟩ := h
    obtain ⟨rfl, rfl⟩ := split_unique ha (colon_not_mem hds) hin
    exact ⟨rfl, hds, hn⟩
  · intro h
    obtain ⟨rfl, hds, hn⟩ := h
    exact ⟨a, rfl, hds, hn⟩

/-- Behind a digit, `nom` decodes only what has a length. -/
theorem fails_of_no_length (hc : IsDigit c) (h : Fails Nom.parseLenU64 (c :: bytes)) :
    Fails Nom.decode (c :: bytes) := by
  obtain ⟨e, he⟩ := h
  refine fails_iff.mpr fun rest v hv => ?_
  obtain ⟨s, hs, -⟩ := (Nom.decode_digit hc).mp hv
  unfold Nom.string at hs
  rw [he] at hs
  cases hs

/-- On a string the decoders agree: behind a first digit, what `plain` does with the
bytes is what `nom` does, or `plain` panics where the string is cut short. -/
theorem string_matches (hc : IsDigit c) : Matches (c :: bytes) (Plain.string (c :: bytes)) := by
  rcases Plain.position_cases ':'.toUInt8 (c :: bytes) with ⟨hpos, hmem⟩ | ⟨a, b, hin, ha⟩
  · unfold Plain.string
    rw [hpos]
    refine fails_of_no_length hc (fails_iff.mpr fun rest n h => ?_)
    obtain ⟨ds, hin, -⟩ := Nom.parseLenU64_eq_ok.mp h
    exact hmem (hin ▸ List.mem_append_right ds (List.mem_cons_self ..))
  · have hhead : ∀ c' ∈ a.head?, IsDigit c' := by
      cases a with
      | nil => exact fun c' hc' => by cases hc'
      | cons c' a =>
        intro c'' hc''
        cases hc''
        exact (List.cons.inj hin).1 ▸ hc
    rw [hin, Plain.string_append ha, ← hin]
    cases htext : fromUtf8 a with
    | error e =>
      refine fails_of_no_length hc (fails_iff.mpr fun rest n h => ?_)
      rw [hin, parseLenU64_append ha] at h
      obtain ⟨s, hs⟩ := fromUtf8_digits h.2.1
      rw [htext] at hs
      cases hs
    | ok text =>
      show Matches _ ((Decoded.ofExcept .parseInt (parseU64 (asBytes text))).bind _)
      rw [fromUtf8_eq_ok.mp htext]
      cases hnum : parseU64 a with
      | error e =>
        refine fails_of_no_length hc (fails_iff.mpr fun rest n h => ?_)
        rw [hin, parseLenU64_append ha, ← parseU64_eq_ok hhead, hnum] at h
        cases h.2
      | ok n =>
        obtain ⟨hds, hn⟩ := (parseU64_eq_ok hhead).mp hnum
        show Matches _ (if n ≤ b.length then _ else _)
        by_cases hle : n ≤ b.length
        · rw [if_pos hle]
          have hlen : (b.take n).length = n := List.length_take_of_le hle
          have hs : DerivesString (a ++ ':'.toUInt8 :: b.take n) (fromUtf8Lossy (b.take n)) :=
            .mk (by rwa [hlen]) (by rwa [hlen])
          refine (Nom.decode_digit hc).mpr ⟨_, Nom.string_eq_ok.mpr ⟨_, ?_, hs⟩, rfl⟩
          rw [hin, List.append_assoc, List.cons_append, List.take_append_drop]
        · rw [if_neg hle, hin]
          exact Trips.string hds hn (by omega)

/-- On an integer the decoders agree. -/
theorem integer_matches :
    Matches ('i'.toUInt8 :: bytes) (Plain.integer ('i'.toUInt8 :: bytes)) := by
  have hfails (h : ∀ n rest, Nom.integer ('i'.toUInt8 :: bytes) ≠ .ok (rest, n)) :
      Fails Nom.decode ('i'.toUInt8 :: bytes) := by
    refine fails_iff.mpr fun rest v hv => ?_
    obtain ⟨n, hn, -⟩ := Nom.decode_int.mp hv
    exact h n rest hn
  -- no byte of a numeral is the one that ends it
  have hend {ds : List UInt8} {n : Int} (hds : SignedDigits ds n) :
      'e'.toUInt8 ∉ 'i'.toUInt8 :: ds := by
    intro h
    rcases List.mem_cons.mp h with h | h
    · exact absurd h (by decide)
    · rcases isDigit_or_sign hds h with h | h | h
      · exact absurd h (by decide)
      · exact absurd h (by decide)
      · exact absurd h (by decide)
  rcases Plain.position_cases 'e'.toUInt8 ('i'.toUInt8 :: bytes) with ⟨hpos, hmem⟩ | ⟨a, b, hin, ha⟩
  · unfold Plain.integer
    rw [hpos]
    refine hfails fun n rest h => ?_
    obtain ⟨ds, hin, -⟩ := Nom.integer_eq_ok.mp h
    refine hmem (hin ▸ List.mem_cons_of_mem _ ?_)
    exact List.mem_append_right ds (List.mem_cons_self ..)
  · cases a with
    | nil => exact absurd (List.cons.inj hin).1 (by decide)
    | cons i a =>
      obtain ⟨rfl, hin'⟩ := List.cons.inj hin
      have hnum (n : Int) (rest : List UInt8)
          (h : Nom.integer ('i'.toUInt8 :: bytes) = .ok (rest, n)) :
          SignedDigits a n ∧ -2 ^ 63 ≤ n ∧ n < 2 ^ 63 := by
        obtain ⟨ds, hin'', hds, hn⟩ := Nom.integer_eq_ok.mp h
        obtain ⟨haa, -⟩ := split_unique ha (hend hds) (hin.symm.trans hin'')
        exact (List.cons.inj haa).2 ▸ ⟨hds, hn⟩
      rw [hin, Plain.integer_append ha, ← hin, List.drop_one, List.tail_cons]
      cases htext : fromUtf8 a with
      | error e =>
        refine hfails fun n rest h => ?_
        obtain ⟨s, hs⟩ := fromUtf8_ascii fun c hc => by
          rcases isDigit_or_sign (hnum n rest h).1 hc with h | rfl | rfl
          · have := h.2
            omega
          · decide
          · decide
        rw [htext] at hs
        cases hs
      | ok text =>
        have hbytes := fromUtf8_eq_ok.mp htext
        show Matches _ ((Decoded.ofExcept .parseInt (parseI64 (asBytes text))).bind _)
        rw [hbytes]
        cases hparse : parseI64 a with
        | error e =>
          refine hfails fun n rest h => ?_
          rw [parseI64_eq_ok.mpr (hnum n rest h)] at hparse
          cases hparse
        | ok n =>
          obtain ⟨hds, hn⟩ := parseI64_eq_ok.mp hparse
          exact Nom.decode_int.mpr ⟨n, Nom.integer_eq_ok.mpr ⟨a, hin, hds, hn⟩, rfl⟩

end Leaves

/-! ## One call, and one round of each loop -/

section Rounds

variable {bytes bytes' : List UInt8} {o : Decoded (List UInt8 × Value)}

/-- A list is what its loop makes of the bytes behind the `l`. -/
theorem matches_list (h : MatchesList bytes [] o) : Matches ('l'.toUInt8 :: bytes) o := by
  cases o with
  | ok r =>
    obtain ⟨vs, hvs, hv⟩ := h
    exact Nom.decode_list.mpr ⟨vs, hvs, hv⟩
  | err e =>
    refine fails_iff.mpr fun rest v hv => ?_
    obtain ⟨vs, hvs, -⟩ := Nom.decode_list.mp hv
    exact h rest vs hvs
  | panicked e => exact .list h
  | unfinished => exact h

/-- A dictionary is what its loop makes of the bytes behind the `d`. -/
theorem matches_dict (h : MatchesDict bytes [] o) : Matches ('d'.toUInt8 :: bytes) o := by
  cases o with
  | ok r =>
    obtain ⟨entries, he, hv⟩ := h
    exact Nom.decode_dict.mpr ⟨entries, he, hv⟩
  | err e =>
    refine fails_iff.mpr fun rest v hv => ?_
    obtain ⟨entries, he, -⟩ := Nom.decode_dict.mp hv
    exact h rest entries he
  | panicked e => exact .dict h
  | unfinished => exact h

/-- Where the loops stop the other decoder, the plain one panics. -/
theorem head_ne_end {fuel : Nat} {e : DecodeError} (h : Plain.decodeAt fuel bytes = .err e) :
    ∀ rest, bytes ≠ 'e'.toUInt8 :: rest := by
  intro rest heq
  subst heq
  cases fuel with
  | zero => cases h
  | succ fuel => cases h

/-- One round of the list's loop: an element that both decode, and no `e` behind it. -/
theorem matchesList_next {elem : Value} {list : List Value}
    (hnom : Nom.decode bytes = .ok (bytes', elem)) (hmore : bytes'.head? ≠ some 'e'.toUInt8)
    (h : MatchesList bytes' (list ++ [elem]) o) : MatchesList bytes list o := by
  cases o with
  | ok r =>
    obtain ⟨vs, hvs, hv⟩ := h
    exact ⟨vs, (foldMany0_next hnom (Nom.decode_lt hnom)).trans hvs, hv⟩
  | err e =>
    intro rest vs hvs
    rw [foldMany0_next hnom (Nom.decode_lt hnom)] at hvs
    exact h rest vs hvs
  | panicked e =>
    obtain ⟨p, rfl, hp⟩ := Nom.decode_eq_ok.mp hnom
    exact .next hp hmore h
  | unfinished => exact h

/-- The loop of `plain` over a list matches, if the decoder matches on the element
and the loop on every shorter rest. -/
theorem listLoop_matches {fuel : Nat} {list : List Value}
    (helem : Matches bytes (Plain.decodeAt fuel bytes))
    (hloop : ∀ bytes' list', bytes'.length < bytes.length →
      MatchesList bytes' list' (Plain.listLoop fuel bytes' list')) :
    MatchesList bytes list (Plain.listLoop (fuel + 1) bytes list) := by
  show MatchesList bytes list ((Plain.decodeAt fuel bytes).bind _)
  cases hx : Plain.decodeAt fuel bytes with
  | ok r =>
    obtain ⟨bytes', elem⟩ := r
    have hnom : Nom.decode bytes = .ok (bytes', elem) := by
      rw [hx] at helem
      exact helem
    show MatchesList bytes list (if bytes'.head? = some 'e'.toUInt8 then _ else _)
    by_cases hend : bytes'.head? = some 'e'.toUInt8
    · rw [if_pos hend]
      obtain ⟨tl, rfl⟩ : ∃ tl, bytes' = 'e'.toUInt8 :: tl := List.head?_eq_some_iff.mp hend
      refine ⟨list ++ [elem], ?_, rfl⟩
      rw [foldMany0_next hnom (Nom.decode_lt hnom)]
      exact foldMany0_stop (Nom.fails_at_end Nom.decode_sound tl)
    · rw [if_neg hend]
      exact matchesList_next hnom hend (hloop bytes' (list ++ [elem]) (Nom.decode_lt hnom))
  | err e =>
    intro rest vs hvs
    rw [hx] at helem
    rw [foldMany0_stop helem] at hvs
    cases hvs
    exact head_ne_end hx rest rfl
  | panicked e =>
    rw [hx] at helem
    exact .elem helem
  | unfinished =>
    rw [hx] at helem
    exact helem

/-- One round of the dictionary's loop: a key and a value that both decode, and no
`e` behind them. -/
theorem matchesDict_next {mid : List UInt8} {key : String} {val : Value}
    {map : List (String × Value)} (hkey : Nom.string bytes = .ok (mid, key))
    (hval : Nom.decode mid = .ok (bytes', val)) (hmore : bytes'.head? ≠ some 'e'.toUInt8)
    (h : MatchesDict bytes' (btreeInsert map (key, val)) o) : MatchesDict bytes map o := by
  have hpair : pair Nom.string Nom.decode bytes = .ok (bytes', (key, val)) :=
    pair_eq_ok.mpr ⟨mid, hkey, hval⟩
  have hlt : bytes'.length < bytes.length :=
    (Nom.decode_lt hval).trans (Nom.decode_lt (Nom.decode_eq_string.mpr hkey))
  cases o with
  | ok r =>
    obtain ⟨entries, he, hv⟩ := h
    exact ⟨entries, (foldMany0_next hpair hlt).trans he, hv⟩
  | err e =>
    intro rest entries he
    rw [foldMany0_next hpair hlt] at he
    exact h rest entries he
  | panicked e =>
    obtain ⟨p, rfl, hp⟩ := Nom.string_eq_ok.mp hkey
    obtain ⟨q, rfl, hq⟩ := Nom.decode_eq_ok.mp hval
    exact .next hp hq hmore h
  | unfinished => exact h

/-- Where the other decoder cannot read an entry, its dictionary ends. -/
theorem matchesDict_err {map : List (String × Value)} {e : DecodeError}
    (h : Fails (pair Nom.string Nom.decode) bytes) (hend : ∀ rest, bytes ≠ 'e'.toUInt8 :: rest) :
    MatchesDict bytes map (.err e) := by
  intro rest entries he
  rw [foldMany0_stop h] at he
  cases he
  exact hend rest rfl

/-- The loop of `plain` over a dictionary matches, if the decoder matches on the key
and the value and the loop on every shorter rest. -/
theorem dictLoop_matches {fuel : Nat} {map : List (String × Value)}
    (hdecode : ∀ bytes', bytes'.length ≤ bytes.length →
      Matches bytes' (Plain.decodeAt fuel bytes'))
    (hloop : ∀ bytes' map', bytes'.length < bytes.length →
      MatchesDict bytes' map' (Plain.dictLoop fuel bytes' map')) :
    MatchesDict bytes map (Plain.dictLoop (fuel + 1) bytes map) := by
  have hkey := hdecode bytes (Nat.le_refl _)
  show MatchesDict bytes map ((Plain.decodeAt fuel bytes).bind _)
  cases hx : Plain.decodeAt fuel bytes with
  | err e =>
    rw [hx] at hkey
    refine matchesDict_err (pair_fails_left (fails_iff.mpr fun rest s hs => ?_)) (head_ne_end hx)
    exact fails_iff.mp hkey rest _ (Nom.decode_eq_string.mpr hs)
  | panicked e =>
    rw [hx] at hkey
    exact .key hkey
  | unfinished =>
    rw [hx] at hkey
    exact hkey
  | ok r =>
    obtain ⟨mid, key⟩ := r
    rw [hx] at hkey
    have hnom : Nom.decode bytes = .ok (mid, key) := hkey
    -- the plain decoder panics on a key that is no string
    have hkind (hk : ∀ s, key ≠ .string s) : TripsDict bytes := by
      obtain ⟨p, rfl, hp⟩ := Nom.decode_eq_ok.mp hnom
      exact .keyKind hp hk
    cases key with
    | int n => exact hkind fun s h => by cases h
    | list vs => exact hkind fun s h => by cases h
    | map entries => exact hkind fun s h => by cases h
    | string key =>
      have hstr := Nom.decode_eq_string.mp hnom
      have hlt := Nom.decode_lt hnom
      have hval := hdecode mid (Nat.le_of_lt hlt)
      show MatchesDict bytes map ((Plain.decodeAt fuel mid).bind _)
      cases hy : Plain.decodeAt fuel mid with
      | err e =>
        rw [hy] at hval
        refine matchesDict_err (pair_fails_right hstr hval) fun rest hbytes => ?_
        obtain ⟨c, tl, hin, hc⟩ := Nom.string_head hstr
        exact absurd ((List.cons.inj (hbytes.symm.trans hin)).1 ▸ hc) (by decide)
      | panicked e =>
        rw [hy] at hval
        obtain ⟨p, rfl, hp⟩ := Nom.string_eq_ok.mp hstr
        exact .value hp hval
      | unfinished =>
        rw [hy] at hval
        exact hval
      | ok r =>
        obtain ⟨bytes', val⟩ := r
        rw [hy] at hval
        have hlt' : bytes'.length < bytes.length := (Nom.decode_lt hval).trans hlt
        show MatchesDict bytes map (if bytes'.head? = some 'e'.toUInt8 then _ else _)
        -- the loop ends at the `e`
        by_cases hend : bytes'.head? = some 'e'.toUInt8
        · rw [if_pos hend]
          obtain ⟨tl, rfl⟩ : ∃ tl, bytes' = 'e'.toUInt8 :: tl := List.head?_eq_some_iff.mp hend
          refine ⟨btreeInsert map (key, val), ?_, rfl⟩
          rw [foldMany0_next (pair_eq_ok.mpr ⟨mid, hstr, hval⟩) hlt']
          exact foldMany0_stop (Nom.entry_fails_at_end Nom.decode_sound tl)
        · rw [if_neg hend]
          exact matchesDict_next hstr hval hend (hloop bytes' _ hlt')

end Rounds

/-- **The plain decoder does what the other one does, until it trips.** The fuel
is enough for every call and every round. -/
theorem decodeAt_matches (fuel : Nat) :
    (∀ bytes, 2 * bytes.length + 1 ≤ fuel → Matches bytes (Plain.decodeAt fuel bytes)) ∧
    (∀ bytes list, 2 * bytes.length + 2 ≤ fuel →
      MatchesList bytes list (Plain.listLoop fuel bytes list)) ∧
    (∀ bytes map, 2 * bytes.length + 2 ≤ fuel →
      MatchesDict bytes map (Plain.dictLoop fuel bytes map)) := by
  induction fuel with
  | zero => exact ⟨fun _ h => by omega, fun _ _ h => by omega, fun _ _ h => by omega⟩
  | succ fuel ih =>
    obtain ⟨ihdecode, ihlist, ihdict⟩ := ih
    refine ⟨fun bytes hfuel => ?_, fun bytes list hfuel => ?_, fun bytes map hfuel => ?_⟩
    · cases bytes with
      | nil =>
        refine fails_iff.mpr fun rest v hv => ?_
        exact absurd (Nom.decode_lt hv) (Nat.not_lt_zero _)
      | cons c bytes =>
        simp only [List.length_cons] at hfuel
        simp only [Plain.decodeAt]
        split
        · exact string_matches ‹_›
        · split
          · subst c
            exact integer_matches
          · split
            · subst c
              exact matches_list (ihlist bytes [] (by omega))
            · split
              · subst c
                exact matches_dict (ihdict bytes [] (by omega))
              · exact Trips.other ‹_› ‹_› ‹_› ‹_›
    · exact listLoop_matches (ihdecode bytes (by omega)) fun bytes' list' hlt =>
        ihlist bytes' list' (by omega)
    · exact dictLoop_matches (fun bytes' hle => ihdecode bytes' (by omega)) fun bytes' map' hlt =>
        ihdict bytes' map' (by omega)

/-! ## Where it trips, it panics -/

section Panics

variable {bytes p : List UInt8} {v : Value} {fuel : Nat}

/-- A value is read as it is, unless something in it makes the decoder panic. -/
theorem decodeAt_derives (hp : Derives p v) (hfuel : 2 * (p ++ bytes).length + 1 ≤ fuel) :
    Plain.decodeAt fuel (p ++ bytes) = .ok (bytes, v) ∨
      ∃ e, Plain.decodeAt fuel (p ++ bytes) = .panicked e := by
  have hnom : Nom.decode (p ++ bytes) = .ok (bytes, v) := Nom.decode_eq_ok.mpr ⟨p, rfl, hp⟩
  have hmatch := (decodeAt_matches fuel).1 (p ++ bytes) hfuel
  cases hx : Plain.decodeAt fuel (p ++ bytes) with
  | ok r =>
    rw [hx] at hmatch
    have hr : Except.ok r = Except.ok (bytes, v) := Eq.trans (Eq.symm hmatch) hnom
    cases hr
    exact Or.inl rfl
  | err e =>
    rw [hx] at hmatch
    exact absurd hnom (fails_iff.mp hmatch bytes v)
  | panicked e => exact Or.inr ⟨e, rfl⟩
  | unfinished =>
    rw [hx] at hmatch
    exact hmatch.elim

/-- A string that is cut short is sliced out of range. -/
theorem string_panics {ds : List UInt8} {n : Nat} (hds : Digits ds n) (hn : n < 2 ^ 64)
    (hshort : bytes.length < n) :
    Plain.string (ds ++ ':'.toUInt8 :: bytes) = .panicked (.slice n bytes.length) := by
  obtain ⟨text, htext⟩ := fromUtf8_digits hds
  have hnum : parseU64 ds = .ok n :=
    (parseU64_eq_ok fun c hc => hds.digit c (List.mem_of_mem_head? hc)).mpr ⟨hds, hn⟩
  rw [Plain.string_append (colon_not_mem hds), htext]
  show (Decoded.ofExcept .parseInt (parseU64 (asBytes text))).bind _ = _
  rw [fromUtf8_eq_ok.mp htext, hnum]
  exact if_neg (by omega)

/-- The rest of a loop panics, so the loop does. -/
theorem bind_panics {α β : Type} {x : Decoded α} {f : α → Decoded β}
    (h : (∃ a, x = .ok a ∧ ∃ e, f a = .panicked e) ∨ ∃ e, x = .panicked e) :
    ∃ e, x.bind f = .panicked e := by
  rcases h with ⟨a, rfl, e, he⟩ | ⟨e, rfl⟩
  · exact ⟨e, he⟩
  · exact ⟨e, rfl⟩

/-- What trips by the grammar panics, in the decoder and in both its loops. The
induction is on the fuel, which is enough for two calls per byte. -/
theorem decodeAt_panics (fuel : Nat) :
    (∀ bytes, 2 * bytes.length + 1 ≤ fuel → Trips bytes →
      ∃ e, Plain.decodeAt fuel bytes = .panicked e) ∧
    (∀ bytes list, 2 * bytes.length + 2 ≤ fuel → TripsList bytes →
      ∃ e, Plain.listLoop fuel bytes list = .panicked e) ∧
    (∀ bytes map, 2 * bytes.length + 2 ≤ fuel → TripsDict bytes →
      ∃ e, Plain.dictLoop fuel bytes map = .panicked e) := by
  induction fuel with
  | zero => exact ⟨fun _ h => by omega, fun _ _ h => by omega, fun _ _ h => by omega⟩
  | succ fuel ih =>
    obtain ⟨ihdecode, ihlist, ihdict⟩ := ih
    refine ⟨fun bytes hfuel h => ?_, fun bytes list hfuel h => ?_, fun bytes map hfuel h => ?_⟩
    -- a value
    · cases h with
      | other hdigit hi hl hd =>
        simp only [Plain.decodeAt]
        rw [if_neg hdigit, if_neg hi, if_neg hl, if_neg hd]
        exact ⟨_, rfl⟩
      | @string ds bytes n hds hn hshort =>
        have hstr := string_panics hds hn hshort
        cases ds with
        | nil => exact absurd rfl hds.ne_nil
        | cons c ds =>
          rw [List.cons_append] at hstr ⊢
          simp only [Plain.decodeAt]
          rw [if_pos hds.head, hstr]
          exact ⟨_, rfl⟩
      | @list bytes h =>
        simp only [List.length_cons] at hfuel
        exact ihlist bytes [] (by omega) h
      | @dict bytes h =>
        simp only [List.length_cons] at hfuel
        exact ihdict bytes [] (by omega) h
    -- the elements of a list: this one trips, or a later one
    · refine bind_panics ?_
      cases h with
      | elem h => exact Or.inr (ihdecode bytes (by omega) h)
      | @next p bytes v hv hmore h =>
        have hlt : bytes.length < (p ++ bytes).length :=
          Nom.decode_lt (Nom.decode_eq_ok.mpr ⟨p, rfl, hv⟩)
        refine (decodeAt_derives hv (by omega)).imp_left fun hok => ⟨_, hok, ?_⟩
        dsimp only
        rw [if_neg hmore]
        exact ihlist bytes _ (by omega) h
    -- the entries of a dictionary: the key, its kind, the value, or a later entry
    · refine bind_panics ?_
      cases h with
      | key h => exact Or.inr (ihdecode bytes (by omega) h)
      | @keyKind p bytes v hv hkind =>
        refine (decodeAt_derives hv (by omega)).imp_left fun hok => ⟨_, hok, ?_⟩
        cases v with
        | string s => exact absurd rfl (hkind s)
        | int n => exact ⟨_, rfl⟩
        | list vs => exact ⟨_, rfl⟩
        | map entries => exact ⟨_, rfl⟩
      | @value p bytes s hk h =>
        have hlt : bytes.length < (p ++ bytes).length :=
          Nom.decode_lt (Nom.decode_eq_ok.mpr ⟨p, rfl, .string hk⟩)
        refine (decodeAt_derives (.string hk) (by omega)).imp_left fun hok => ⟨_, hok, ?_⟩
        exact bind_panics (Or.inr (ihdecode bytes (by omega) h))
      | @next p q bytes s v hk hv hmore h =>
        have hltk : (q ++ bytes).length < (p ++ (q ++ bytes)).length :=
          Nom.decode_lt (Nom.decode_eq_ok.mpr ⟨p, rfl, .string hk⟩)
        have hltv : bytes.length < (q ++ bytes).length :=
          Nom.decode_lt (Nom.decode_eq_ok.mpr ⟨q, rfl, hv⟩)
        refine (decodeAt_derives (.string hk) (by omega)).imp_left fun hok => ⟨_, hok, ?_⟩
        refine bind_panics ((decodeAt_derives hv (by omega)).imp_left fun hok => ⟨_, hok, ?_⟩)
        dsimp only
        rw [if_neg hmore]
        exact ihdict bytes _ (by omega) h

end Panics

/-- `plain` matches `nom` on every input: two for each byte, and one, are enough
fuel. -/
theorem plain_matches (input : List UInt8) : Matches input (Plain.decode input) :=
  (decodeAt_matches _).1 input (Nat.le_refl _)

/-- `plain` panics where the grammar says that it trips, and nowhere else. -/
theorem plain_panics_iff {input : List UInt8} :
    (∃ e, Plain.decode input = .panicked e) ↔ Trips input := by
  constructor
  · intro ⟨e, he⟩
    have h := plain_matches input
    rw [he] at h
    exact h
  · exact (decodeAt_panics _).1 input (Nat.le_refl _)

/-- **The decoders agree wherever the plain one does not trip**, and then the user
gets the same from both. -/
theorem decoders_agree_iff (input : List UInt8) :
    DecodersAgree input ∧ SameOutcome input ↔ ¬ Trips input := by
  constructor
  · intro hq htrips
    obtain ⟨h, -⟩ := hq
    obtain ⟨p, hp⟩ := plain_panics_iff.mpr htrips
    rcases h with ⟨r, -, hr⟩ | ⟨e, e', -, he⟩
    · rw [hp] at hr
      cases hr
    · rw [hp] at he
      cases he
  · intro htrips
    have h := plain_matches input
    cases hx : Plain.decode input with
    | ok r =>
      rw [hx] at h
      have hnom : Nom.decode input = .ok r := h
      refine ⟨Or.inl ⟨r, hnom, hx⟩, Or.inl ⟨r, fun d => ?_⟩⟩
      cases d with
      | nom =>
        unfold Decoder.decode
        rw [hnom]
      | plain => exact hx
    | err e' =>
      rw [hx] at h
      obtain ⟨e, he⟩ : Fails Nom.decode input := h
      refine ⟨Or.inr ⟨e, e', he, hx⟩, Or.inr fun d => ?_⟩
      cases d with
      | nom =>
        unfold Decoder.decode
        rw [he]
        exact ⟨_, rfl⟩
      | plain => exact ⟨e', hx⟩
    | panicked p => exact absurd (plain_panics_iff.mp ⟨p, hx⟩) htrips
    | unfinished =>
      rw [hx] at h
      exact h.elim

/-- On the empty list, `le`, one decoder returns it and the other panics. -/
theorem empty_list_trips :
    Nom.decode ['l'.toUInt8, 'e'.toUInt8] = .ok ([], .list []) ∧
      Plain.decode ['l'.toUInt8, 'e'.toUInt8] = .panicked .todo ∧
      ¬ (DecodersAgree ['l'.toUInt8, 'e'.toUInt8] ∧ SameOutcome ['l'.toUInt8, 'e'.toUInt8]) := by
  refine ⟨by rfl, by rfl, ?_⟩
  intro hp
  obtain ⟨⟨r, -, h⟩ | ⟨e, e', -, h⟩, -⟩ := hp
  · cases h
  · cases h

end BitTorrent.Bencode
