import BitTorrent.Bencode.Nom
import BitTorrent.Bencode.Tree

/-!
# What the nom decoder accepts

`decode` reads the texts of `Derives` and no others (`Nom.decode_eq_ok`). A text is
read in one way only: of two values that begin an input, neither is longer. Each
value has a canonical text (`Value.encode`), which is among those it is read from.

The canonical text has its numbers without leading zeros and the keys of its
dictionaries in order. It is read back for the values that the types of the source
can hold (`Value.Valid`): integers that are `i64`s, strings whose length is a
`usize`, and dictionaries whose keys ascend.

That a text has one reading needs no induction of its own. The decoder is complete
for the grammar, and a function: two derivations at the front of one input are two
results of the same call (`Complete.prefix_unique`).
-/

namespace BitTorrent.Bencode

open BitTorrent.Nom

namespace Value

/-- A value that the types of the source can hold. The keys of a `BTreeMap` are in
order, and no key comes twice. -/
inductive Valid : Value → Prop
  | int {n : Int} (h : -2 ^ 63 ≤ n ∧ n < 2 ^ 63) : Valid (int n)
  | string {s : String} (h : (asBytes s).length < 2 ^ 64) : Valid (string s)
  | list {vs : List Value} (h : ∀ v ∈ vs, Valid v) : Valid (list vs)
  | map {entries : List (String × Value)} (hkeys : entries.Pairwise fun e e' => e.1 < e'.1)
      (hlen : ∀ e ∈ entries, (asBytes e.1).length < 2 ^ 64) (h : ∀ e ∈ entries, Valid e.2) :
      Valid (map entries)

mutual

/-- The value as a document. -/
def tree : Value → Tree
  | int n => .int n
  | string s => .bytes (asBytes s)
  | list vs => .list (trees vs)
  | map entries => .dict (treeEntries entries)

/-- The trees of a list of values, in order. -/
def trees : List Value → List Tree
  | [] => []
  | v :: vs => v.tree :: trees vs

/-- The entries of a map, with its keys as bytes. -/
def treeEntries : List (String × Value) → List (List UInt8 × Tree)
  | [] => []
  | (key, v) :: entries => (asBytes key, v.tree) :: treeEntries entries

end

/-- The canonical text of the value. -/
def encode (v : Value) : List UInt8 := v.tree.encode

end Value

section Canonical

variable {v : Value} {vs : List Value} {entries : List (String × Value)}

/-- A text written with its length in front is a string of the grammar. -/
theorem derivesString_encodeBytes {s : String} (h : (asBytes s).length < 2 ^ 64) :
    DerivesString (Tree.encodeBytes (asBytes s)) s := by
  have hmk := DerivesString.mk (digits_decimal (asBytes s).length) h
  rwa [fromUtf8Lossy_asBytes] at hmk

/-- Entries that come in order are all kept, in their order. -/
theorem foldl_btreeInsert : ∀ (entries acc : List (String × Value)),
    (acc ++ entries).Pairwise (fun e e' => e.1 < e'.1) →
      entries.foldl btreeInsert acc = acc ++ entries := by
  intro entries
  induction entries with
  | nil => exact fun acc _ => (List.append_nil acc).symm
  | cons e entries ih =>
    intro acc hsorted
    rw [← List.singleton_append, ← List.append_assoc] at hsorted
    have hbefore := (List.pairwise_append.mp (List.pairwise_append.mp hsorted).1).2.2
    rw [List.foldl_cons,
      btreeInsert_last fun e' he' => hbefore e' he' e (List.mem_singleton.mpr rfl),
      ih _ hsorted, List.append_assoc, List.singleton_append]

mutual

/-- The encoding of a valid value is a text of it. By recursion on the value, with
the two lemmas below for what is inside a list and a dictionary. -/
theorem derives_encode : ∀ v : Value, v.Valid → Derives v.encode v
  | .int n, h => by
    cases h with
    | int h => exact .int (signedDigits_decimalInt n) h
  | .string s, h => by
    cases h with
    | string h => exact .string (derivesString_encodeBytes h)
  | .list vs, h => by
    cases h with
    | list h => exact .list (star_encodeList vs h)
  | .map entries, h => by
    cases h with
    | map hkeys hlen h =>
      have hdict := Derives.dict (star_encodeEntries entries hlen h)
      rwa [foldl_btreeInsert entries [] hkeys, List.nil_append] at hdict

theorem star_encodeList : ∀ vs : List Value, (∀ v ∈ vs, v.Valid) →
    Star Derives (Tree.encodeList (Value.trees vs)) vs
  | [], _ => .nil
  | v :: vs, h =>
    .cons (derives_encode v (h v (List.mem_cons_self ..)))
      (star_encodeList vs fun v' hv' => h v' (List.mem_cons_of_mem v hv'))

/-- The encodings of a map's entries are a sequence of strings and values. -/
theorem star_encodeEntries : ∀ entries : List (String × Value),
    (∀ e ∈ entries, (asBytes e.1).length < 2 ^ 64) → (∀ e ∈ entries, e.2.Valid) →
      Star (Concat DerivesString Derives) (Tree.encodeEntries (Value.treeEntries entries)) entries
  | [], _, _ => .nil
  | (key, v) :: entries, hlen, h => by
    have hkey := derivesString_encodeBytes (hlen (key, v) (List.mem_cons_self ..))
    have hv := derives_encode v (h (key, v) (List.mem_cons_self ..))
    have hrest := star_encodeEntries entries (fun e he => hlen e (List.mem_cons_of_mem _ he))
      fun e he => h e (List.mem_cons_of_mem _ he)
    rw [Value.treeEntries, Tree.encodeEntries, ← List.append_assoc]
    exact .cons (.mk hkey hv) hrest

end

/-- **The decoder accepts exactly the grammar**, each text in one way, and reads
every value back from its canonical text. -/
theorem decode_exact :
    (∀ (input rest : List UInt8) (v : Value),
      Nom.decode input = .ok (rest, v) ↔ ∃ p, input = p ++ rest ∧ Derives p v) ∧
    (∀ (p p' rest rest' : List UInt8) (v v' : Value), Derives p v → Derives p' v' →
      p ++ rest = p' ++ rest' → p = p' ∧ v = v') ∧
    ∀ (v : Value) (s : List UInt8), v.Valid → Nom.decode (v.encode ++ s) = .ok (s, v) := by
  refine ⟨fun input rest v => Nom.decode_eq_ok, fun p p' rest rest' v v' hp hp' heq => ?_,
    fun v s hv => Nom.decode_eq_ok.mpr ⟨v.encode, rfl, derives_encode v hv⟩⟩
  exact Complete.prefix_unique (fun n => Nom.decode_complete n) hp hp' heq

/-- A dictionary with an empty list, and bytes behind it. -/
theorem decode_exact_dict :
    Nom.decode ((Value.map [("a", .list []), ("b", .int (-7))]).encode ++ [1]) =
      .ok ([1], .map [("a", .list []), ("b", .int (-7))]) := by
  refine decode_exact.2.2 _ [1] (.map ?_ ?_ ?_)
  · decide
  · decide
  · intro e he
    simp only [List.mem_cons, List.not_mem_nil, or_false] at he
    rcases he with rfl | rfl
    · exact .list fun v hv => absurd hv List.not_mem_nil
    · exact .int (by decide)

end Canonical

end BitTorrent.Bencode
