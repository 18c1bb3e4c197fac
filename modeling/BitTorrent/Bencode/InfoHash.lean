import BitTorrent.Bencode.MetaInfo
import BitTorrent.Bencode.Tree
import BitTorrent.Bencode.Value
import BitTorrent.Lib.Utf8

/-!
# The torrent file and its info-hash (`bencode/meta_info.rs`, `parse_meta_info`)

`parseMetaInfo` is what `serde_bencode::from_bytes` makes of a torrent file, given
as its tree, with the `Deserialize` that serde derives:

* a struct is read from a dictionary. Keys that it does not have are skipped, a
  field that comes twice is an error (`once`), and the keys of `Torrent` and `Info`
  have to be UTF-8 (`Tree.identifiers`);
* `download_type` is flattened and untagged: the values of the keys that `Info`
  does not have are buffered, and the first shape that can be decoded from them is
  taken;
* the `File`s are read from that buffer, from a dictionary or from the list of the
  two fields;
* every integer has to be an `i64`, wherever it stands (`Tree.integersFit`).

Left out: serde also reads a `Torrent` from the list of its three fields
(`visit_seq`). Here a torrent file is a dictionary, as the format wants it, and
`parseMetaInfo` of a list is `none`. How the bytes of the file are split into a
tree is left to `serde_bencode`.

`Info::hash` encodes the `Info` again, with the keys in order, and hashes that
(`hashInput`). What was skipped is not encoded again, so the hash is that of the
file's own info dictionary exactly when nothing in it was skipped
(`hashInput_eq_iff`).
-/

namespace BitTorrent.Bencode

/-- The struct `Torrent`. -/
structure MetaInfo where
  announce : String
  announceList : List (List String)
  info : Info
  deriving DecidableEq, Repr

/-! ## Decoding -/

/-- The value of a key, the first one if it comes twice. -/
def Tree.field (t : Tree) (name : String) : Option Tree := t.get (asBytes name)

/-- The value of a struct's field. A second one is an error, too (serde's
`duplicate field`). -/
def once (t : Tree) (name : String) : Option Tree :=
  match t with
  | .dict entries =>
    match entries.filter fun e => e.1 = asBytes name with
    | [e] => some e.2
    | _ => none
  | _ => none

/-- The keys of a dictionary are UTF-8, as `deserialize_identifier` wants them. -/
def Tree.identifiers : Tree → Bool
  | .dict entries => entries.all fun e => (fromUtf8 e.1).toOption.isSome
  | _ => false

/-- Every integer of a file is read as an `i64`, wherever it stands. -/
def isI64 (n : Int) : Bool := -2 ^ 63 ≤ n ∧ n < 2 ^ 63

mutual

/-- Every integer in the tree is an `i64`, as `serde_bencode` reads them. -/
def Tree.integersFit : Tree → Bool
  | .int n => isI64 n
  | .bytes _ => true
  | .list ts => listFits ts
  | .dict entries => entriesFit entries

/-- `integersFit` for the elements of a list. -/
def Tree.listFits : List Tree → Bool
  | [] => true
  | t :: ts => t.integersFit && listFits ts

/-- `integersFit` for the values of a dictionary. -/
def Tree.entriesFit : List (List UInt8 × Tree) → Bool
  | [] => true
  | (_, t) :: entries => t.integersFit && entriesFit entries

end

/-- An unsigned integer of `w` bits. -/
def uintOf (w : Nat) : Tree → Option Nat
  | .int n => if 0 ≤ n ∧ n < 2 ^ w then some n.toNat else none
  | _ => none

/-- A `String` is read from bytes that are UTF-8. -/
def stringOf : Tree → Option String
  | .bytes b => (fromUtf8 b).toOption
  | _ => none

/-- A `Vec` is read from a list, element by element. -/
def vecOf {α : Type} (f : Tree → Option α) : Tree → Option (List α)
  | .list ts => ts.mapM f
  | _ => none

/-- `chunks_exact(20)`. -/
@[semireducible] def chunksExact (v : List UInt8) : List Digest :=
  if h : 20 ≤ v.length then
    ⟨(v.take 20).toArray, by rw [List.size_toArray, List.length_take_of_le h]⟩ ::
      chunksExact (v.drop 20)
  else []
termination_by v.length
decreasing_by
  rw [List.length_drop]
  omega

/-- `PiecesVisitor::visit_bytes`: the bytes are cut into hashes of 20, with none
left over. -/
def piecesOf : Tree → Option (List Digest)
  | .bytes v => if v.length % 20 ≠ 0 then none else some (chunksExact v)
  | _ => none

/-- A `File`. A struct is read from a list of its fields, too. The values of a
flattened field are buffered, so its keys need not be UTF-8. -/
def fileOf : Tree → Option File
  | .list [length, path] => do
    return { length := ← uintOf 64 length, path := ← vecOf stringOf path }
  | t => do
    let length ← (once t "length").bind (uintOf 64)
    let path ← (once t "path").bind (vecOf stringOf)
    return { length, path }

/-- The untagged `DownloadType`, flattened into the dictionary `t`. -/
def downloadTypeOf (t : Tree) : Option DownloadType :=
  match (once t "length").bind (uintOf 64) with
  | some length => some (.singleFile length)
  | none => ((once t "files").bind (vecOf fileOf)).map .multiFile

/-- The struct `Info`. It has a flattened field, so it is read from a dictionary
only. -/
def infoOf (t : Tree) : Option Info := do
  guard t.identifiers
  let name ← (once t "name").bind stringOf
  let pieceLength ← (once t "piece length").bind (uintOf 32)
  let pieces ← (once t "pieces").bind piecesOf
  let downloadType ← downloadTypeOf t
  return { name, pieceLength, pieces, downloadType }

/-- `#[serde(default)]`: the field may be missing. -/
def announceListOf (t : Tree) : Option (List (List String)) :=
  match t.field "announce-list" with
  | some _ => (once t "announce-list").bind (vecOf (vecOf stringOf))
  | none => some []

/-- The struct `Torrent`, from a dictionary. -/
def torrentOf (t : Tree) : Option MetaInfo := do
  guard t.identifiers
  let announce ← (once t "announce").bind stringOf
  let announceList ← announceListOf t
  let info ← (once t "info").bind infoOf
  return { announce, announceList, info }

/-- `parse_meta_info`, once the file is read. The file is the encoding of `t`. -/
def parseMetaInfo (t : Tree) : Option MetaInfo := if t.integersFit then torrentOf t else none

/-! ## Encoding -/

/-- A struct is written with its keys in order. -/
def structTree (fields : List (String × Tree)) : Tree :=
  .dict (fields.foldl (fun m f => btreeInsert m (asBytes f.1, f.2)) [])

/-- How a `String` is written. -/
def stringTree (s : String) : Tree := .bytes (asBytes s)

/-- How a `File` is written. -/
def fileTree (file : File) : Tree :=
  structTree [("length", .int file.length), ("path", .list (file.path.map stringTree))]

/-- The flattened field of `Info`. -/
def downloadTypeField : DownloadType → String × Tree
  | .singleFile length => ("length", .int length)
  | .multiFile files => ("files", .list (files.map fileTree))

/-- How an `Info` is written, with the field of its `DownloadType` flattened into
it. -/
def infoTree (info : Info) : Tree :=
  structTree [("name", stringTree info.name), ("piece length", .int info.pieceLength),
    ("pieces", .bytes (info.pieces.flatMap Vector.toList)), downloadTypeField info.downloadType]

/-- What `Info::hash` feeds to SHA-1. -/
def hashInput (info : Info) : List UInt8 := (infoTree info).encode

/-- `Info::hash`. -/
def infoHash (sha1 : List UInt8 → Digest) (info : Info) : Digest := sha1 (hashInput info)

/-! ## The keys, in order -/

theorem keys_sorted :
    (["files", "length", "name", "path", "piece length", "pieces"].map asBytes).Pairwise
      (· < ·) := by
  decide +kernel

/-- The order of two keys, from their places in the list. -/
theorem keys_lt {i j : Nat} {a b : String}
    (hi : ["files", "length", "name", "path", "piece length", "pieces"][i]? = some a)
    (hj : ["files", "length", "name", "path", "piece length", "pieces"][j]? = some b)
    (hij : i < j) : asBytes a < asBytes b := by
  obtain ⟨hi', rfl⟩ := List.getElem?_eq_some_iff.mp hi
  obtain ⟨hj', rfl⟩ := List.getElem?_eq_some_iff.mp hj
  have h := List.pairwise_iff_getElem.mp keys_sorted i j
    (by simpa using hi') (by simpa using hj') hij
  simpa only [List.getElem_map] using h

theorem name_lt_pieceLength : asBytes "name" < asBytes "piece length" :=
  keys_lt (i := 2) (j := 4) rfl rfl (by omega)

theorem name_lt_pieces : asBytes "name" < asBytes "pieces" :=
  keys_lt (i := 2) (j := 5) rfl rfl (by omega)

/-- `piece length` comes before `pieces`: a blank is less than an `s`. -/
theorem pieceLength_lt_pieces : asBytes "piece length" < asBytes "pieces" :=
  keys_lt (i := 4) (j := 5) rfl rfl (by omega)

theorem length_lt_path : asBytes "length" < asBytes "path" :=
  keys_lt (i := 1) (j := 3) rfl rfl (by omega)

theorem downloadTypeField_lt (d : DownloadType) :
    asBytes (downloadTypeField d).1 < asBytes "name" := by
  cases d with
  | singleFile length => exact keys_lt (i := 1) (j := 2) rfl rfl (by omega)
  | multiFile files => exact keys_lt (i := 0) (j := 2) rfl rfl (by omega)

/-- The dictionary with these fields, which are in order. -/
def dictTree (fields : List (String × Tree)) : Tree :=
  .dict (fields.map fun f => (asBytes f.1, f.2))

/-- A file's fields are written in the order of the struct, which is sorted. -/
theorem fileTree_eq (file : File) : fileTree file =
    dictTree [("length", .int file.length), ("path", .list (file.path.map stringTree))] := by
  have hpath : btreeInsert [(asBytes "length", Tree.int file.length)]
      (asBytes "path", .list (file.path.map stringTree)) = _ :=
    btreeInsert_last fun e he => List.mem_singleton.mp he ▸ length_lt_path
  exact congrArg Tree.dict hpath

/-- The order in which the fields of an `Info` are sorted. -/
theorem infoTree_eq (info : Info) : infoTree info =
    dictTree [downloadTypeField info.downloadType, ("name", stringTree info.name),
      ("piece length", .int info.pieceLength),
      ("pieces", .bytes (info.pieces.flatMap Vector.toList))] := by
  have hlength : btreeInsert [(asBytes "name", stringTree info.name)]
      (asBytes "piece length", .int info.pieceLength) = _ :=
    btreeInsert_last fun e he => List.mem_singleton.mp he ▸ name_lt_pieceLength
  have hpieces : btreeInsert [(asBytes "name", stringTree info.name),
      (asBytes "piece length", .int info.pieceLength)]
      (asBytes "pieces", .bytes (info.pieces.flatMap Vector.toList)) = _ :=
    btreeInsert_last fun e he => by
      rcases List.mem_cons.mp he with rfl | he
      · exact name_lt_pieces
      · exact List.mem_singleton.mp he ▸ pieceLength_lt_pieces
  unfold infoTree structTree
  simp only [List.foldl_cons, List.foldl_nil]
  show Tree.dict (btreeInsert (btreeInsert (btreeInsert [(asBytes "name", stringTree info.name)]
    _) _) _) = _
  rw [hlength]
  show Tree.dict (btreeInsert (btreeInsert [_, _] _) _) = _
  rw [hpieces]
  exact congrArg Tree.dict (btreeInsert_first (downloadTypeField_lt info.downloadType))

/-! ## What decoding keeps -/

section Inverse

variable {t : Tree}

/-- A number that was read is the integer of the tree. -/
theorem uintOf_inv {w n : Nat} (h : uintOf w t = some n) : .int n = t := by
  cases t with
  | int m =>
    simp only [uintOf] at h
    split at h
    · cases h
      exact congrArg Tree.int (Int.toNat_of_nonneg (And.left ‹_›))
    · cases h
  | bytes b => cases h
  | list ts => cases h
  | dict entries => cases h

/-- A number that was read fits its width. -/
theorem uintOf_lt {w n : Nat} (h : uintOf w t = some n) : n < 2 ^ w := by
  obtain rfl := uintOf_inv h
  simp only [uintOf] at h
  split at h
  next hrange => exact_mod_cast hrange.2
  next => cases h

/-- A string that was read is written as it was. -/
theorem stringOf_inv {s : String} (h : stringOf t = some s) : stringTree s = t := by
  cases t with
  | bytes b =>
    simp only [stringOf] at h
    cases hs : fromUtf8 b with
    | error e =>
      rw [hs] at h
      cases h
    | ok s' =>
      rw [hs] at h
      cases h
      exact congrArg Tree.bytes (fromUtf8_eq_ok.mp hs)
  | int n => cases h
  | list ts => cases h
  | dict entries => cases h

/-- If `g` undoes `f` on each element, it undoes `mapM f`. -/
theorem mapM_inv {α β : Type} {f : α → Option β} {g : β → α} {as : List α} {bs : List β}
    (hfg : ∀ a ∈ as, ∀ b, f a = some b → g b = a) (h : as.mapM f = some bs) : bs.map g = as := by
  induction as generalizing bs with
  | nil =>
    rw [List.mapM_nil] at h
    cases h
    rfl
  | cons a as ih =>
    rw [List.mapM_cons] at h
    obtain ⟨b, hb, h⟩ := Option.bind_eq_some_iff.mp h
    obtain ⟨bs', hbs, h⟩ := Option.bind_eq_some_iff.mp h
    cases h
    rw [List.map_cons, hfg a (List.mem_cons_self ..) b hb,
      ih (fun a' ha => hfg a' (List.mem_cons_of_mem a ha)) hbs]

/-- A list that was read is written as it was, if its elements are. -/
theorem vecOf_inv {α : Type} {f : Tree → Option α} {g : α → Tree} {as : List α}
    (hfg : ∀ ts, t = .list ts → ∀ t' ∈ ts, ∀ a, f t' = some a → g a = t')
    (h : vecOf f t = some as) : .list (as.map g) = t := by
  cases t with
  | list ts => exact congrArg Tree.list (mapM_inv (hfg ts rfl) h)
  | int n => cases h
  | bytes b => cases h
  | dict entries => cases h

/-- The chunks of bytes whose number is divisible by 20 are all of them. -/
theorem flatMap_chunksExact (v : List UInt8) (h : v.length % 20 = 0) :
    (chunksExact v).flatMap Vector.toList = v := by
  induction hn : v.length using Nat.strongRecOn generalizing v with
  | ind n ih =>
    subst hn
    rw [chunksExact]
    split
    · have hlen : (v.drop 20).length = v.length - 20 := List.length_drop
      rw [List.flatMap_cons, ih _ (by omega) (v.drop 20) (by omega) rfl]
      exact List.take_append_drop 20 v
    · have hnil : v.length = 0 := by omega
      rw [List.length_eq_zero_iff.mp hnil]
      rfl

/-- Hashes that were read are written as they were. -/
theorem piecesOf_inv {pieces : List Digest} (h : piecesOf t = some pieces) :
    .bytes (pieces.flatMap Vector.toList) = t := by
  cases t with
  | bytes v =>
    simp only [piecesOf] at h
    split at h
    · cases h
    · cases h
      exact congrArg Tree.bytes (flatMap_chunksExact v (not_not.mp ‹_›))
  | int n => cases h
  | list ts => cases h
  | dict entries => cases h

end Inverse

/-! ## Dictionaries without further keys -/

/-- `t` is a dictionary, and these are all the keys it may have. -/
def OnlyKeys (keys : List String) : Tree → Prop
  | .dict entries => ∀ e ∈ entries, e.1 ∈ keys.map asBytes
  | _ => False

/-- The info dictionary holds the keys of one shape, and its file entries are
dictionaries with those of a file. -/
def NoFurtherKeys (info : Tree) : Prop :=
  OnlyKeys ["length", "name", "piece length", "pieces"] info ∨
  OnlyKeys ["files", "name", "piece length", "pieces"] info ∧
    ∀ files, info.field "files" = some (.list files) →
      ∀ file ∈ files, OnlyKeys ["length", "path"] file

section Exact

variable {t : Tree} {fields : List (String × Tree)}

theorem onlyKeys_dictTree : OnlyKeys (fields.map Prod.fst) (dictTree fields) := by
  intro e he
  obtain ⟨f, hf, rfl⟩ := List.mem_map.mp he
  exact List.mem_map.mpr ⟨f.1, List.mem_map.mpr ⟨f, hf, rfl⟩, rfl⟩

/-- A dictionary in order that has these fields and no other. -/
theorem dictTree_eq (ht : t.Canonical)
    (hsorted : (fields.map fun f => asBytes f.1).Pairwise (· < ·))
    (hkeys : OnlyKeys (fields.map Prod.fst) t)
    (hget : ∀ f ∈ fields, t.field f.1 = some f.2) : dictTree fields = t := by
  cases t with
  | dict entries =>
    cases ht with
    | dict hentries _ =>
      refine congrArg Tree.dict (Tree.entries_eq hentries ?_ ?_ ?_).symm
      · rw [List.map_map]
        exact hsorted
      · intro e he
        obtain ⟨k, hk, hek⟩ := List.mem_map.mp (hkeys e he)
        obtain ⟨f, hf, rfl⟩ := List.mem_map.mp hk
        rw [List.map_map, ← hek]
        exact List.mem_map.mpr ⟨f, hf, rfl⟩
      · intro kv hkv
        obtain ⟨f, hf, rfl⟩ := List.mem_map.mp hkv
        exact hget f hf
  | int n => exact hkeys.elim
  | bytes b => exact hkeys.elim
  | list ts => exact hkeys.elim

theorem canonical_of_mem {ts : List Tree} (h : (Tree.list ts).Canonical) {t : Tree} (ht : t ∈ ts) :
    t.Canonical := by
  cases h with
  | list h => exact h t ht

/-- What is in a canonical dictionary is canonical. -/
theorem canonical_of_get {key : List UInt8} {t' : Tree} (h : t.Canonical)
    (hget : t.get key = some t') : t'.Canonical := by
  cases h with
  | dict _ h => exact h _ (Tree.mem_of_lookup hget)
  | int n => cases hget
  | bytes b => cases hget
  | list h => cases hget

/-- What comes once is what the key stands for. -/
theorem field_of_once {name : String} {t' : Tree} (h : once t name = some t') :
    t.field name = some t' := by
  cases t with
  | dict entries =>
    simp only [once] at h
    split at h
    next e heq =>
      obtain rfl := Option.some.inj h
      -- no entry before it has the key
      obtain ⟨l₁, l₂, rfl, hbefore, hkey, -⟩ := List.filter_eq_cons_iff.mp heq
      refine List.lookup_eq_some_iff.mpr ⟨l₁, l₂, ?_, fun e' he' => ?_⟩
      · rw [← of_decide_eq_true hkey]
      · exact bne_iff_ne.mpr fun heq => hbefore e' he' (decide_eq_true heq.symm)
    next => cases h
  | int n => cases h
  | bytes b => cases h
  | list ts => cases h

/-- A field that was decoded comes once, and is what the key stands for. -/
theorem field_of_bind {α : Type} {f : Tree → Option α} {name : String} {a : α}
    (h : (once t name).bind f = some a) : ∃ t', t.field name = some t' ∧ f t' = some a := by
  obtain ⟨t', ht', ha⟩ := Option.bind_eq_some_iff.mp h
  exact ⟨t', field_of_once ht', ha⟩

/-- A struct that was decoded had identifiers for its keys. -/
theorem of_guard {α : Type} {b : Bool} {o : Option α} {a : α}
    (h : (do guard b; o) = some a) : o = some a := by
  cases b with
  | true => exact h
  | false => cases h

/-- A file that was read is written as it was, if it has no further keys. -/
theorem fileOf_inv {file : File} (ht : t.Canonical) (hkeys : OnlyKeys ["length", "path"] t)
    (h : fileOf t = some file) : fileTree file = t := by
  have hfields : ((once t "length").bind (uintOf 64)).bind (fun length =>
      ((once t "path").bind (vecOf stringOf)).bind fun path =>
        some { length, path : File }) = some file := by
    cases t with
    | dict entries => exact h
    | int n => exact hkeys.elim
    | bytes b => exact hkeys.elim
    | list ts => exact hkeys.elim
  obtain ⟨length, hlength, h⟩ := Option.bind_eq_some_iff.mp hfields
  obtain ⟨path, hpath, h⟩ := Option.bind_eq_some_iff.mp h
  cases h
  obtain ⟨tl, htl, hlength⟩ := field_of_bind hlength
  obtain ⟨tp, htp, hpath⟩ := field_of_bind hpath
  rw [fileTree_eq]
  refine dictTree_eq ht ?_ hkeys ?_
  · exact List.pairwise_pair.mpr length_lt_path
  · intro f hf
    rcases List.mem_cons.mp hf with rfl | hf
    · rw [htl, uintOf_inv hlength]
    · rw [List.mem_singleton.mp hf, htp, vecOf_inv (fun _ _ _ _ _ hs => stringOf_inv hs) hpath]

/-- A key that is not among them has no value. -/
theorem field_eq_none {keys : List String} {name : String} (hkeys : OnlyKeys keys t)
    (hname : name ∉ keys) : t.field name = none := by
  cases t with
  | dict entries =>
    refine Option.eq_none_iff_forall_not_mem.mpr fun t' ht' => ?_
    obtain ⟨k, hk, heq⟩ := List.mem_map.mp (hkeys _ (Tree.mem_of_lookup ht'))
    exact hname (asBytes_inj.mp heq ▸ hk)
  | int n => rfl
  | bytes b => rfl
  | list ts => rfl

variable {info : Info}

/-- The fields that an `Info` was read from. -/
theorem infoOf_fields (h : infoOf t = some info) :
    t.field "name" = some (stringTree info.name) ∧
    t.field "piece length" = some (.int info.pieceLength) ∧
    t.field "pieces" = some (.bytes (info.pieces.flatMap Vector.toList)) ∧
    downloadTypeOf t = some info.downloadType := by
  obtain ⟨name, hname, h⟩ := Option.bind_eq_some_iff.mp (of_guard h)
  obtain ⟨pieceLength, hlength, h⟩ := Option.bind_eq_some_iff.mp h
  obtain ⟨pieces, hpieces, h⟩ := Option.bind_eq_some_iff.mp h
  obtain ⟨downloadType, hdownload, h⟩ := Option.bind_eq_some_iff.mp h
  cases h
  obtain ⟨tn, htn, hname⟩ := field_of_bind hname
  obtain ⟨tl, htl, hlength⟩ := field_of_bind hlength
  obtain ⟨tp, htp, hpieces⟩ := field_of_bind hpieces
  refine ⟨?_, ?_, ?_, hdownload⟩
  · rw [htn, stringOf_inv hname]
  · rw [htl, uintOf_inv hlength]
  · rw [htp, piecesOf_inv hpieces]

/-- The piece length is a `u32`. -/
theorem pieceLength_lt (h : infoOf t = some info) : info.pieceLength < 2 ^ 32 := by
  obtain ⟨name, -, h⟩ := Option.bind_eq_some_iff.mp (of_guard h)
  obtain ⟨pieceLength, hlength, h⟩ := Option.bind_eq_some_iff.mp h
  obtain ⟨pieces, -, h⟩ := Option.bind_eq_some_iff.mp h
  obtain ⟨downloadType, -, h⟩ := Option.bind_eq_some_iff.mp h
  cases h
  obtain ⟨tl, -, hlength⟩ := field_of_bind hlength
  exact uintOf_lt hlength

/-- An accepted file has an info dictionary, and its integers fit. -/
theorem parse_info {m : MetaInfo} (hm : parseMetaInfo t = some m) : t.integersFit = true ∧
    ∃ ti, t.field "info" = some ti ∧ infoOf ti = some m.info := by
  unfold parseMetaInfo at hm
  split at hm
  next hfit =>
    obtain ⟨announce, -, hm⟩ := Option.bind_eq_some_iff.mp (of_guard hm)
    obtain ⟨announceList, -, hm⟩ := Option.bind_eq_some_iff.mp hm
    obtain ⟨info, hinfo, hm⟩ := Option.bind_eq_some_iff.mp hm
    cases hm
    exact ⟨hfit, field_of_bind hinfo⟩
  next => cases hm

/-- The shape that is decoded is the one whose key is there. -/
theorem downloadTypeOf_field {d : DownloadType} (ht : t.Canonical) (hkeys : NoFurtherKeys t)
    (h : downloadTypeOf t = some d) :
    t.field (downloadTypeField d).1 = some (downloadTypeField d).2 ∧
      OnlyKeys [(downloadTypeField d).1, "name", "piece length", "pieces"] t := by
  unfold downloadTypeOf at h
  cases hl : (once t "length").bind (uintOf 64) with
  | some length =>
    rw [hl] at h
    cases h
    obtain ⟨tl, htl, hlength⟩ := field_of_bind hl
    have hfield : t.field "length" = some (.int length) := by rw [htl, uintOf_inv hlength]
    refine ⟨hfield, hkeys.resolve_right fun hmulti => ?_⟩
    rw [field_eq_none hmulti.1 (by decide)] at htl
    cases htl
  | none =>
    rw [hl] at h
    obtain ⟨files, hbind, rfl⟩ := Option.map_eq_some_iff.mp h
    obtain ⟨tf, htf, hfiles⟩ := field_of_bind hbind
    have hmulti := hkeys.resolve_left fun hsingle => by
      rw [field_eq_none hsingle (by decide)] at htf
      cases htf
    refine ⟨?_, hmulti.1⟩
    have hlist : .list (files.map fileTree) = tf := vecOf_inv (fun ts hts t' ht' file hfile => by
      subst hts
      exact fileOf_inv (canonical_of_mem (canonical_of_get ht htf) ht') (hmulti.2 ts htf t' ht')
        hfile) hfiles
    exact htf.trans (congrArg some hlist.symm)

/-- **An info dictionary without further keys is encoded again as it was.** -/
theorem infoTree_inv (ht : t.Canonical) (hkeys : NoFurtherKeys t) (h : infoOf t = some info) :
    infoTree info = t := by
  obtain ⟨hname, hlength, hpieces, hdownload⟩ := infoOf_fields h
  obtain ⟨hfield, honly⟩ := downloadTypeOf_field ht hkeys hdownload
  rw [infoTree_eq]
  refine dictTree_eq ht ?_ honly ?_
  · have hfirst := downloadTypeField_lt info.downloadType
    have hname_pieceLength := name_lt_pieceLength
    simp only [List.map_cons, List.map_nil, List.pairwise_cons, List.mem_cons, List.not_mem_nil,
      or_false, forall_eq_or_imp, forall_eq]
    refine ⟨⟨hfirst, ?_, ?_⟩, ⟨hname_pieceLength, name_lt_pieces⟩, pieceLength_lt_pieces, ?_⟩
    · exact List.lt_trans hfirst hname_pieceLength
    · exact List.lt_trans hfirst name_lt_pieces
    · exact ⟨fun _ h => h.elim, .nil⟩
  · intro f hf
    simp only [List.mem_cons, List.not_mem_nil, or_false] at hf
    rcases hf with rfl | rfl | rfl | rfl
    · exact hfield
    · exact hname
    · exact hlength
    · exact hpieces

/-- What is encoded has no further keys. -/
theorem noFurtherKeys_infoTree (info : Info) : NoFurtherKeys (infoTree info) := by
  rw [infoTree_eq]
  cases info.downloadType with
  | singleFile length => exact Or.inl onlyKeys_dictTree
  | multiFile files =>
    refine Or.inr ⟨onlyKeys_dictTree, fun fs hfs file hfile => ?_⟩
    have hhead : Tree.list (files.map fileTree) = .list fs := by
      simpa [Tree.field, dictTree, Tree.get, downloadTypeField] using hfs
    cases hhead
    obtain ⟨f, -, rfl⟩ := List.mem_map.mp hfile
    rw [fileTree_eq]
    exact onlyKeys_dictTree

end Exact

/-- **The info-hash is that of the info dictionary in the file exactly when the
dictionary has no further keys.** -/
theorem hashInput_eq_iff {t : Tree} {m : MetaInfo} (ht : t.Canonical)
    (hm : parseMetaInfo t = some m) :
    ∃ info, t.field "info" = some info ∧ info.encode <:+: t.encode ∧
      (hashInput m.info = info.encode ↔ NoFurtherKeys info) := by
  obtain ⟨-, ti, hti, hinfo⟩ := parse_info hm
  refine ⟨ti, hti, Tree.encode_infix hti, ?_⟩
  unfold hashInput
  rw [Tree.encode_inj]
  constructor
  · intro h
    exact h ▸ noFurtherKeys_infoTree m.info
  · exact fun hkeys => infoTree_inv (canonical_of_get ht hti) hkeys hinfo

/-- A torrent file of the repository, `single.torrent`. Its info dictionary has a
`private` key. -/
def singleTorrent : Tree :=
  dictTree [("announce", stringTree "udp://tracker.openbittorrent.com:80"),
    ("creation date", .int 1327049827),
    ("info", dictTree [("length", .int 20), ("name", stringTree "sample.txt"),
      ("piece length", .int 65536),
      ("pieces", .bytes [92, 197, 230, 82, 190, 13, 230, 242, 120, 5, 179, 4, 100, 255, 155, 0,
        244, 137, 240, 201]),
      ("private", .int 1)])]

/-- What the test of the repository expects it to decode to. -/
def singleMeta : MetaInfo where
  announce := "udp://tracker.openbittorrent.com:80"
  announceList := []
  info :=
    { name := "sample.txt"
      pieceLength := 65536
      pieces := [#v[92, 197, 230, 82, 190, 13, 230, 242, 120, 5, 179, 4, 100, 255, 155, 0, 244,
        137, 240, 201]]
      downloadType := .singleFile 20 }

/-- The example is canonical. -/
theorem canonical_singleTorrent : singleTorrent.Canonical := by
  refine .dict (by decide +kernel) fun e he => ?_
  simp only [List.map_cons, List.map_nil, List.mem_cons, List.not_mem_nil, or_false] at he
  rcases he with rfl | rfl | rfl
  · exact .bytes _
  · exact .int _
  · refine .dict (by decide +kernel) fun e he => ?_
    simp only [List.map_cons, List.map_nil, List.mem_cons, List.not_mem_nil, or_false] at he
    rcases he with rfl | rfl | rfl | rfl | rfl
    · exact .int _
    · exact .bytes _
    · exact .int _
    · exact .bytes _
    · exact .int _

theorem parseMetaInfo_singleTorrent : parseMetaInfo singleTorrent = some singleMeta := by
  decide +kernel

theorem hashInput_eq_iff_single :
    ∃ info, singleTorrent.field "info" = some info ∧ info.encode <:+: singleTorrent.encode ∧
      (hashInput singleMeta.info = info.encode ↔ NoFurtherKeys info) :=
  hashInput_eq_iff canonical_singleTorrent parseMetaInfo_singleTorrent

/-- The repository's own file is hashed without its `private` key. -/
theorem single_hash_differs :
    singleTorrent.Canonical ∧ parseMetaInfo singleTorrent = some singleMeta ∧
      ∀ info, singleTorrent.field "info" = some info → hashInput singleMeta.info ≠ info.encode := by
  refine ⟨canonical_singleTorrent, parseMetaInfo_singleTorrent, fun info hinfo h => ?_⟩
  have hne : (singleTorrent.field "info").map Tree.encode ≠ some (hashInput singleMeta.info) := by
    decide +kernel
  exact hne (by rw [hinfo, h]; rfl)

end BitTorrent.Bencode
