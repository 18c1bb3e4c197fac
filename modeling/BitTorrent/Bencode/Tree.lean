import Mathlib.Data.List.Sort
import BitTorrent.Lib.Numerals

/-!
# Bencoded documents, as they are written

A `Tree` is a document whose strings are bytes. `encode` writes it the one way a
canonical file does, and reads back: a text begins with the encoding of at most
one tree (`encode_append_inj`). `Canonical` asks for what a tree can still get
wrong, the order of its keys.

This is what `serde_bencode` has between the bytes of a file and the types of the
program. It differs from `Value` of the decoders: there a string is a text, and
here it is bytes, which the piece hashes and the list of peers need. The keys of a
dictionary stay in the order of the file, and may come twice.

That encodings are a prefix code is proved by induction on the tree, together with
lists of trees and of entries: the first byte tells the kind, a length tells where
a string ends, and an `e` begins no tree. So an encoding can be cut at one place
only, and two trees with the same encoding are equal.
-/

namespace BitTorrent.Bencode

/-- A bencoded value as `serde_bencode` sees it: strings are bytes, and a dictionary
keeps its entries in the order of the file. -/
inductive Tree
  | int (n : Int)
  | bytes (b : List UInt8)
  | list (ts : List Tree)
  | dict (entries : List (List UInt8 × Tree))

namespace Tree

/-- A byte string with its length in front. -/
def encodeBytes (b : List UInt8) : List UInt8 := decimal b.length ++ ':'.toUInt8 :: b

mutual

/-- The bytes of a value. -/
def encode : Tree → List UInt8
  | int n => 'i'.toUInt8 :: (decimalInt n ++ ['e'.toUInt8])
  | bytes b => encodeBytes b
  | list ts => 'l'.toUInt8 :: (encodeList ts ++ ['e'.toUInt8])
  | dict entries => 'd'.toUInt8 :: (encodeEntries entries ++ ['e'.toUInt8])

/-- The bytes of a list's elements. -/
def encodeList : List Tree → List UInt8
  | [] => []
  | t :: ts => t.encode ++ encodeList ts

/-- The bytes of a dictionary's entries. -/
def encodeEntries : List (List UInt8 × Tree) → List UInt8
  | [] => []
  | (key, t) :: entries => encodeBytes key ++ (t.encode ++ encodeEntries entries)

end

/-- The value of a key, in a dictionary. -/
def get (key : List UInt8) : Tree → Option Tree
  | dict entries => entries.lookup key
  | _ => none

/-- The keys of every dictionary are in order, and no key comes twice. -/
inductive Canonical : Tree → Prop
  | int (n : Int) : Canonical (int n)
  | bytes (b : List UInt8) : Canonical (bytes b)
  | list {ts : List Tree} (h : ∀ t ∈ ts, Canonical t) : Canonical (list ts)
  | dict {entries : List (List UInt8 × Tree)} (hkeys : (entries.map Prod.fst).Pairwise (· < ·))
      (h : ∀ e ∈ entries, Canonical e.2) : Canonical (dict entries)

/-! ## The encoding is a prefix code -/

/-- The four kinds of value. -/
inductive Kind
  | int
  | bytes
  | list
  | dict
  deriving DecidableEq, Repr

/-- The kind of a value. -/
def kind : Tree → Kind
  | int _ => .int
  | bytes _ => .bytes
  | list _ => .list
  | dict _ => .dict

/-- The kind of tree that begins with a byte. -/
def kindOf (c : UInt8) : Option Kind :=
  if IsDigit c then some .bytes
  else if c = 'i'.toUInt8 then some .int
  else if c = 'l'.toUInt8 then some .list
  else if c = 'd'.toUInt8 then some .dict
  else none

/-- A byte string begins with a digit. -/
theorem encodeBytes_head (b : List UInt8) :
    ∃ c cs, encodeBytes b = c :: cs ∧ IsDigit c := by
  have h := digits_decimal b.length
  unfold encodeBytes
  cases hd : decimal b.length with
  | nil => exact absurd hd h.ne_nil
  | cons c cs =>
    rw [hd] at h
    exact ⟨c, cs ++ ':'.toUInt8 :: b, rfl, h.head⟩

/-- The first byte of an encoding tells the kind. -/
theorem encode_head (t : Tree) : ∃ c cs, t.encode = c :: cs ∧ kindOf c = some t.kind := by
  cases t with
  | int n => exact ⟨_, _, by rw [encode], rfl⟩
  | bytes b =>
    obtain ⟨c, cs, h, hc⟩ := encodeBytes_head b
    exact ⟨c, cs, by rw [encode, h], if_pos hc⟩
  | list ts => exact ⟨_, _, by rw [encode], rfl⟩
  | dict entries => exact ⟨_, _, by rw [encode], rfl⟩

/-- Equal encodings are of values of one kind. -/
theorem kind_eq {t t' : Tree} {s s' : List UInt8} (h : t.encode ++ s = t'.encode ++ s') :
    t.kind = t'.kind := by
  obtain ⟨c, cs, ht, hc⟩ := t.encode_head
  obtain ⟨c', cs', ht', hc'⟩ := t'.encode_head
  rw [ht, ht'] at h
  rw [(List.cons.inj h).1] at hc
  exact Option.some.inj (hc.symm.trans hc')

/-- The byte that ends a list begins no tree. -/
theorem encode_ne_end (t : Tree) (s s' : List UInt8) : t.encode ++ s ≠ 'e'.toUInt8 :: s' := by
  intro h
  obtain ⟨c, cs, ht, hc⟩ := t.encode_head
  rw [ht] at h
  have hend : kindOf 'e'.toUInt8 = none := by decide
  rw [(List.cons.inj h).1, hend] at hc
  cases hc

/-- Byte strings are a prefix code: what follows does not blur them. -/
theorem encodeBytes_append_inj {b b' s s' : List UInt8}
    (h : encodeBytes b ++ s = encodeBytes b' ++ s') : b = b' ∧ s = s' := by
  have hb := digits_decimal b.length
  have hb' := digits_decimal b'.length
  unfold encodeBytes at h
  rw [List.append_assoc, List.append_assoc, List.cons_append, List.cons_append] at h
  obtain ⟨hds, h⟩ := split_unique (hb.not_mem (by decide)) (hb'.not_mem (by decide)) h
  have hlen : b.length = b'.length := by
    rw [← hb.value, ← hb'.value, hds]
  exact List.append_inj h hlen

/-- No byte of a number is the one that ends it. -/
theorem end_not_mem (n : Int) : 'e'.toUInt8 ∉ decimalInt n := by
  intro h
  rcases isDigit_or_sign (signedDigits_decimalInt n) h with h | h | h
  · exact absurd h (by decide)
  · exact absurd h (by decide)
  · exact absurd h (by decide)

mutual

/-- **A text begins with the encoding of at most one tree.** -/
theorem encode_append_inj : ∀ (t t' : Tree) (s s' : List UInt8),
    t.encode ++ s = t'.encode ++ s' → t = t' ∧ s = s' := by
  intro t t' s s' h
  have hkind := kind_eq h
  match t, t' with
  | int n, int n' =>
    rw [encode, encode] at h
    obtain ⟨hn, hs⟩ := split_unique (end_not_mem n) (end_not_mem n') (by simpa using h)
    have hn' := signedDigits_decimalInt n'
    rw [← hn] at hn'
    exact ⟨congrArg int ((signedDigits_decimalInt n).unique hn'), hs⟩
  | bytes b, bytes b' =>
    rw [encode, encode] at h
    obtain ⟨hb, hs⟩ := encodeBytes_append_inj h
    exact ⟨congrArg bytes hb, hs⟩
  | list ts, list ts' =>
    rw [encode, encode] at h
    obtain ⟨hts, hs⟩ := encodeList_append_inj ts ts' s s' (by simpa using h)
    exact ⟨congrArg list hts, hs⟩
  | dict entries, dict entries' =>
    rw [encode, encode] at h
    obtain ⟨he, hs⟩ := encodeEntries_append_inj entries entries' s s' (by simpa using h)
    exact ⟨congrArg dict he, hs⟩

/-- The elements of a list can be told from their bytes up to the `e`. -/
theorem encodeList_append_inj : ∀ (ts ts' : List Tree) (s s' : List UInt8),
    encodeList ts ++ 'e'.toUInt8 :: s = encodeList ts' ++ 'e'.toUInt8 :: s' →
      ts = ts' ∧ s = s' := by
  intro ts ts' s s' h
  match ts, ts' with
  | [], [] => exact ⟨rfl, (List.cons.inj h).2⟩
  | [], t' :: ts' =>
    rw [encodeList, encodeList, List.append_assoc] at h
    exact absurd h.symm (encode_ne_end t' _ _)
  | t :: ts, [] =>
    rw [encodeList, encodeList, List.append_assoc] at h
    exact absurd h (encode_ne_end t _ _)
  | t :: ts, t' :: ts' =>
    rw [encodeList, encodeList, List.append_assoc, List.append_assoc] at h
    obtain ⟨ht, hrest⟩ := encode_append_inj t t' _ _ h
    obtain ⟨hts, hs⟩ := encodeList_append_inj ts ts' s s' hrest
    exact ⟨congrArg₂ List.cons ht hts, hs⟩

/-- The entries of a dictionary can be told from their bytes up to the `e`. -/
theorem encodeEntries_append_inj : ∀ (entries entries' : List (List UInt8 × Tree))
    (s s' : List UInt8), encodeEntries entries ++ 'e'.toUInt8 :: s =
      encodeEntries entries' ++ 'e'.toUInt8 :: s' → entries = entries' ∧ s = s' := by
  intro entries entries' s s' h
  have hend (b rest rest' : List UInt8) : encodeBytes b ++ rest ≠ 'e'.toUInt8 :: rest' := by
    intro h
    have hb := encode_ne_end (bytes b) rest rest'
    rw [encode] at hb
    exact hb h
  match entries, entries' with
  | [], [] => exact ⟨rfl, (List.cons.inj h).2⟩
  | [], (key', t') :: entries' =>
    rw [encodeEntries, encodeEntries, List.append_assoc] at h
    exact absurd h.symm (hend key' _ _)
  | (key, t) :: entries, [] =>
    rw [encodeEntries, encodeEntries, List.append_assoc] at h
    exact absurd h (hend key _ _)
  | (key, t) :: entries, (key', t') :: entries' =>
    rw [encodeEntries, encodeEntries] at h
    simp only [List.append_assoc] at h
    obtain ⟨hkey, hrest⟩ := encodeBytes_append_inj h
    obtain ⟨ht, hrest⟩ := encode_append_inj t t' _ _ hrest
    obtain ⟨he, hs⟩ := encodeEntries_append_inj entries entries' s s' hrest
    exact ⟨congrArg₂ List.cons (congrArg₂ Prod.mk hkey ht) he, hs⟩

end

theorem encode_inj {t t' : Tree} : t.encode = t'.encode ↔ t = t' := by
  constructor
  · intro h
    exact (encode_append_inj t t' [] [] (congrArg (· ++ []) h)).1
  · exact congrArg encode

/-! ## Dictionaries -/

section Dict

variable {entries kvs : List (List UInt8 × Tree)} {key : List UInt8} {t : Tree}

theorem mem_of_lookup (h : entries.lookup key = some t) : (key, t) ∈ entries := by
  obtain ⟨l₁, l₂, rfl, -⟩ := List.lookup_eq_some_iff.mp h
  exact List.mem_append_right l₁ (List.mem_cons_self ..)

/-- With sorted keys there is one entry to a key. -/
theorem eq_of_mem (hkeys : (entries.map Prod.fst).Pairwise (· < ·)) {e e' : List UInt8 × Tree}
    (he : e ∈ entries) (he' : e' ∈ entries) (h : e.1 = e'.1) : e = e' := by
  have hnodup : (entries.map Prod.fst).Nodup := by
    refine hkeys.imp fun {a b} hlt => ?_
    intro heq
    subst heq
    exact List.lt_irrefl a hlt
  exact List.inj_on_of_nodup_map hnodup he he' h

/-- A dictionary in order is known from its keys and their values. -/
theorem entries_eq (hkeys : (entries.map Prod.fst).Pairwise (· < ·))
    (hkvs : (kvs.map Prod.fst).Pairwise (· < ·)) (hsub : ∀ e ∈ entries, e.1 ∈ kvs.map Prod.fst)
    (hget : ∀ kv ∈ kvs, entries.lookup kv.1 = some kv.2) : entries = kvs := by
  let r : List UInt8 × Tree → List UInt8 × Tree → Prop := fun e e' => e.1 < e'.1
  have hirrefl : Std.Irrefl r := ⟨fun e => List.lt_irrefl e.1⟩
  have hantisymm : Std.Antisymm r := ⟨fun e e' h h' => absurd h' (List.lt_asymm h)⟩
  refine List.Pairwise.eq_of_mem_iff (List.pairwise_map.mp hkeys) (List.pairwise_map.mp hkvs) ?_
  intro e
  constructor
  · intro he
    obtain ⟨kv, hkv, hkey⟩ := List.mem_map.mp (hsub e he)
    rwa [eq_of_mem hkeys he (mem_of_lookup (hget kv hkv)) hkey.symm]
  · exact fun he => mem_of_lookup (hget e he)

/-- The bytes of a value stand among those of the entries around it. -/
theorem encode_infix_entries {e : List UInt8 × Tree} (he : e ∈ entries) :
    e.2.encode <:+: encodeEntries entries := by
  induction entries with
  | nil => cases he
  | cons e' entries ih =>
    rw [encodeEntries]
    rcases List.mem_cons.mp he with rfl | he
    · exact ⟨encodeBytes e.1, encodeEntries entries, List.append_assoc ..⟩
    · exact (ih he).trans ((List.suffix_append _ _).trans (List.suffix_append _ _)).isInfix

/-- The value of a key is a slice of the document. -/
theorem encode_infix {doc : Tree} (h : doc.get key = some t) : t.encode <:+: doc.encode := by
  cases doc with
  | int n => cases h
  | bytes b => cases h
  | list ts => cases h
  | dict entries =>
    rw [encode]
    refine (encode_infix_entries (mem_of_lookup h)).trans ?_
    exact (List.prefix_append _ _).isInfix.trans (List.suffix_cons _ _).isInfix

end Dict

end Tree

end BitTorrent.Bencode
