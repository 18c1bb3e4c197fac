import BitTorrent.Bencode.InfoHash

/-!
# A torrent is read as it was written

`torrentTree` is what `serde_bencode::to_bytes` makes of a `Torrent`. Reading it
gives the `Torrent` back when the lengths of its files are `i64`s, as the decoder
reads every integer, and an error otherwise (`torrent_round_trip`). What was read
from a file has such lengths, so it survives being written again
(`accepted_round_trip`): keys that were skipped are lost once and nothing else is.

What `Info::hash` hashes is as good as the `Info` itself (`hashInput_injective`).

The fields of a struct are written in the order of their keys, and each is found
again by its key, whatever stands around it. There is one lemma for the lookup of a
key in a list of fields, and one round trip for each type of a field: texts, lists
of texts, the hashes, the files. The untagged `download_type` is the one place
where reading has to choose. It is written as `length` or as `files`, never as
both, so the first shape that can be decoded is the one that was written.

Files are dictionaries here, as the source writes them.
-/

namespace BitTorrent

/-- The lengths in a file, one for each file of the download. -/
def DownloadType.lengths : DownloadType → List Nat
  | .singleFile length => [length]
  | .multiFile files => files.map File.length

/-- The integers are within their types, `u32` and `u64`. -/
structure Info.Typed (info : Info) : Prop where
  pieceLength : info.pieceLength < 2 ^ 32
  lengths : ∀ n ∈ info.downloadType.lengths, n < 2 ^ 64

/-- The lengths are `i64`s, too. -/
def Info.Fits (info : Info) : Prop := ∀ n ∈ info.downloadType.lengths, n < 2 ^ 63

instance (info : Info) : Decidable info.Fits := inferInstanceAs (Decidable (∀ _ ∈ _, _))

namespace Bencode

/-- The struct `Torrent`, written with its keys in order. -/
def torrentTree (m : MetaInfo) : Tree :=
  structTree [("announce", stringTree m.announce),
    ("announce-list", .list (m.announceList.map fun tier => .list (tier.map stringTree))),
    ("info", infoTree m.info)]

section Fields

variable {fields : List (String × Tree)} {name : String} {t t' : Tree}

/-- Fields that come in order are written as they come. -/
theorem structTree_eq (h : (fields.map fun f => asBytes f.1).Pairwise (· < ·)) :
    structTree fields = dictTree fields := by
  suffices hfold : ∀ (fields : List (String × Tree)) (acc : List (List UInt8 × Tree)),
      (fields.map fun f => asBytes f.1).Pairwise (· < ·) →
      (∀ e ∈ acc, ∀ f ∈ fields, e.1 < asBytes f.1) →
      fields.foldl (fun m f => btreeInsert m (asBytes f.1, f.2)) acc =
        acc ++ fields.map fun f => (asBytes f.1, f.2) from
    congrArg Tree.dict (hfold fields [] h fun e he => by cases he)
  intro fields
  induction fields with
  | nil =>
    intro acc _ _
    exact (List.append_nil acc).symm
  | cons f fields ih =>
    intro acc hsorted hacc
    rw [List.map_cons, List.pairwise_cons] at hsorted
    have hlast : btreeInsert acc (asBytes f.1, f.2) = acc ++ [(asBytes f.1, f.2)] :=
      btreeInsert_last fun e he => hacc e he f (List.mem_cons_self ..)
    rw [List.foldl_cons, hlast, ih _ hsorted.2 ?_, List.append_assoc]
    · rfl
    · intro e he f' hf'
      rcases List.mem_append.mp he with he | he
      · exact hacc e he f' (List.mem_cons_of_mem f hf')
      · rw [List.mem_singleton.mp he]
        exact hsorted.1 _ (List.mem_map.mpr ⟨f', hf', rfl⟩)

/-- A field of a dictionary is found under its name. -/
@[simp] theorem field_dictTree (fields : List (String × Tree)) (name : String) :
    (dictTree fields).field name = fields.lookup name := by
  show (fields.map fun f => (asBytes f.1, f.2)).lookup (asBytes name) = fields.lookup name
  induction fields with
  | nil => rfl
  | cons f fields ih =>
    obtain ⟨key, t⟩ := f
    rw [List.map_cons, List.lookup_cons, List.lookup_cons, ih]
    by_cases h : name = key
    · subst h
      simp
    · rw [beq_false_of_ne h, beq_false_of_ne fun heq => h (asBytes_inj.mp heq)]

/-- Of pairs with different keys one at most has the key. -/
theorem filter_key {pairs : List (String × Tree)} (hnodup : (pairs.map Prod.fst).Nodup)
    (name : String) :
    pairs.filter (fun f => f.1 = name) = (pairs.lookup name).toList.map fun t => (name, t) := by
  induction pairs with
  | nil => rfl
  | cons f pairs ih =>
    obtain ⟨key, t⟩ := f
    obtain ⟨hnew, hnodup⟩ := List.nodup_cons.mp hnodup
    by_cases h : key = name
    · subst h
      have hrest : pairs.filter (fun f => f.1 = key) = [] := List.filter_eq_nil_iff.mpr
        fun f hf heq => hnew (List.mem_map.mpr ⟨f, hf, of_decide_eq_true heq⟩)
      rw [List.filter_cons_of_pos (by simp), hrest, List.lookup_cons, beq_self_eq_true]
      rfl
    · rw [List.filter_cons_of_neg (by simpa using h), ih hnodup, List.lookup_cons,
        beq_false_of_ne (Ne.symm h)]

/-- Fields with different names are read back one by one. -/
theorem once_dictTree (hnodup : (fields.map Prod.fst).Nodup) (name : String) :
    once (dictTree fields) name = fields.lookup name := by
  have hfilter : (fields.map fun f => (asBytes f.1, f.2)).filter (fun e => e.1 = asBytes name) =
      (fields.lookup name).toList.map fun t => (asBytes name, t) := by
    have hkeys : (fun f : String × Tree => decide (asBytes f.1 = asBytes name)) =
        fun f => decide (f.1 = name) := funext fun f => decide_eq_decide.mpr asBytes_inj
    rw [List.filter_map, Function.comp_def, hkeys, filter_key hnodup, List.map_map]
    rfl
  simp only [once, dictTree, hfilter]
  cases fields.lookup name <;> rfl

/-- What is written has identifiers for its keys. -/
theorem identifiers_dictTree (fields : List (String × Tree)) :
    (dictTree fields).identifiers = true := by
  simp only [Tree.identifiers, dictTree, List.all_map]
  refine List.all_eq_true.mpr fun f _ => ?_
  simp only [Function.comp_apply, fromUtf8_asBytes]
  rfl

/-- The fields of a `Torrent` are written in the order of the struct, which is
sorted. -/
theorem torrentTree_eq (m : MetaInfo) :
    torrentTree m = dictTree [("announce", stringTree m.announce),
    ("announce-list", .list (m.announceList.map fun tier => .list (tier.map stringTree))),
    ("info", infoTree m.info)] := by
  refine structTree_eq ?_
  show (["announce", "announce-list", "info"].map asBytes).Pairwise (· < ·)
  decide +kernel

/-! ## Reading the fields back -/

@[simp] theorem stringOf_stringTree (s : String) : stringOf (stringTree s) = some s := by
  unfold stringOf stringTree
  dsimp only
  rw [fromUtf8_asBytes]
  rfl

theorem uintOf_int {w n : Nat} (h : n < 2 ^ w) : uintOf w (.int n) = some n := by
  have hle : 0 ≤ (n : Int) ∧ (n : Int) < 2 ^ w := ⟨Int.natCast_nonneg n, by exact_mod_cast h⟩
  simp only [uintOf]
  rw [if_pos hle, Int.toNat_natCast]

/-- A list that was written is read back, if its elements are. -/
theorem vecOf_map {α : Type} {f : Tree → Option α} {g : α → Tree} {as : List α}
    (h : ∀ a ∈ as, f (g a) = some a) : vecOf f (.list (as.map g)) = some as := by
  simp only [vecOf]
  induction as with
  | nil => rfl
  | cons a as ih =>
    rw [List.map_cons, List.mapM_cons, h a (List.mem_cons_self ..),
      ih fun a' ha => h a' (List.mem_cons_of_mem a ha)]
    rfl

theorem vecOf_strings (path : List String) :
    vecOf stringOf (.list (path.map stringTree)) = some path :=
  vecOf_map fun s _ => stringOf_stringTree s

/-- Hashes in a row are cut apart again. -/
theorem chunksExact_flatMap (pieces : List Digest) :
    chunksExact (pieces.flatMap Vector.toList) = pieces := by
  induction pieces with
  | nil =>
    rw [chunksExact]
    exact dif_neg (by decide)
  | cons d pieces ih =>
    have hlen : d.toList.length = 20 := d.length_toList
    rw [List.flatMap_cons, chunksExact, dif_pos (by rw [List.length_append]; omega),
      List.drop_left' hlen, ih]
    exact congrArg (· :: pieces)
      (Vector.toArray_inj.mp (congrArg List.toArray (List.take_left' hlen)))

/-- Hashes that were written are read back. -/
theorem piecesOf_bytes (pieces : List Digest) :
    piecesOf (.bytes (pieces.flatMap Vector.toList)) = some pieces := by
  have hlen : (pieces.flatMap Vector.toList).length % 20 = 0 := by
    induction pieces with
    | nil => rfl
    | cons d pieces ih =>
      rw [List.flatMap_cons, List.length_append, d.length_toList]
      omega
  simp only [piecesOf]
  rw [if_neg (by omega), chunksExact_flatMap]

/-- A file that was written is read back. -/
theorem fileOf_fileTree {file : File} (h : file.length < 2 ^ 64) :
    fileOf (fileTree file) = some file := by
  have hdict : fileOf (fileTree file) = ((once (fileTree file) "length").bind (uintOf 64)).bind
      fun length => ((once (fileTree file) "path").bind (vecOf stringOf)).bind fun path =>
        some { length, path } := rfl
  have hlength : once (fileTree file) "length" = some (.int file.length) := by
    rw [fileTree_eq, once_dictTree (by show ["length", "path"].Nodup; decide)]
    rfl
  have hpath : once (fileTree file) "path" = some (.list (file.path.map stringTree)) := by
    rw [fileTree_eq, once_dictTree (by show ["length", "path"].Nodup; decide)]
    rfl
  rw [hdict, hlength, hpath, Option.bind_some, uintOf_int h, Option.bind_some, Option.bind_some,
    vecOf_strings, Option.bind_some]

section Info

variable {info : Info}

/-- The fields of the info dictionary, by their names. -/
theorem field_infoTree (info : Info) (name : String) : (infoTree info).field name =
    [downloadTypeField info.downloadType, ("name", stringTree info.name),
      ("piece length", .int info.pieceLength),
      ("pieces", .bytes (info.pieces.flatMap Vector.toList))].lookup name := by
  rw [infoTree_eq, field_dictTree]

/-- No key of an `Info` is written twice. -/
theorem infoTree_nodup (info : Info) : ([downloadTypeField info.downloadType,
    ("name", stringTree info.name), ("piece length", .int info.pieceLength),
    ("pieces", .bytes (info.pieces.flatMap Vector.toList))].map Prod.fst).Nodup := by
  cases info.downloadType with
  | singleFile length =>
    show ["length", "name", "piece length", "pieces"].Nodup
    decide
  | multiFile files =>
    show ["files", "name", "piece length", "pieces"].Nodup
    decide

/-- Each of them comes once. -/
theorem once_infoTree (info : Info) (name : String) :
    once (infoTree info) name = (infoTree info).field name := by
  rw [field_infoTree, infoTree_eq, once_dictTree (infoTree_nodup info)]

/-- The `DownloadType` is read back from the flattened field. -/
theorem downloadTypeOf_infoTree (h : info.Typed) :
    downloadTypeOf (infoTree info) = some info.downloadType := by
  have hlengths := h.lengths
  unfold downloadTypeOf
  cases hd : info.downloadType with
  | singleFile length =>
    rw [hd] at hlengths
    have hfield : once (infoTree info) "length" = some (.int length) := by
      rw [once_infoTree, field_infoTree, hd]
      rfl
    rw [hfield, Option.bind_some, uintOf_int (hlengths length (List.mem_cons_self ..))]
  | multiFile files =>
    rw [hd] at hlengths
    have hlength : once (infoTree info) "length" = none := by
      rw [once_infoTree, field_infoTree, hd]
      rfl
    have hfiles : once (infoTree info) "files" = some (.list (files.map fileTree)) := by
      rw [once_infoTree, field_infoTree, hd]
      rfl
    have hvec : vecOf fileOf (.list (files.map fileTree)) = some files :=
      vecOf_map fun file hfile =>
      fileOf_fileTree (hlengths _ (List.mem_map.mpr ⟨file, hfile, rfl⟩))
    rw [hlength, Option.bind_none, hfiles, Option.bind_some, hvec]
    rfl

/-- The fields that both shapes have. -/
theorem infoTree_fields (info : Info) :
    (infoTree info).field "name" = some (stringTree info.name) ∧
    (infoTree info).field "piece length" = some (.int info.pieceLength) ∧
    (infoTree info).field "pieces" = some (.bytes (info.pieces.flatMap Vector.toList)) := by
  rw [field_infoTree, field_infoTree, field_infoTree]
  cases info.downloadType <;> exact ⟨rfl, rfl, rfl⟩

/-- An `Info` that was written is read back. -/
theorem infoOf_infoTree (h : info.Typed) : infoOf (infoTree info) = some info := by
  obtain ⟨hname, hlength, hpieces⟩ := infoTree_fields info
  have hkeys : (infoTree info).identifiers = true := by
    rw [infoTree_eq]
    exact identifiers_dictTree _
  unfold infoOf
  rw [once_infoTree, once_infoTree, once_infoTree, hkeys, hname, hlength, hpieces,
    downloadTypeOf_infoTree h, Option.bind_some, stringOf_stringTree,
    Option.bind_some, uintOf_int h.pieceLength, Option.bind_some, piecesOf_bytes]
  rfl

end Info

/-- A `Torrent` that was written is read back, integers aside. -/
theorem torrentOf_torrentTree {m : MetaInfo} (h : m.info.Typed) :
    torrentOf (torrentTree m) = some m := by
  have honce : ∀ name, once (torrentTree m) name = [("announce", stringTree m.announce),
      ("announce-list", .list (m.announceList.map fun tier => .list (tier.map stringTree))),
      ("info", infoTree m.info)].lookup name := fun name => by
    rw [torrentTree_eq,
      once_dictTree (by show ["announce", "announce-list", "info"].Nodup; decide)]
  have hannounce : once (torrentTree m) "announce" = some (stringTree m.announce) := honce _
  have hlist : once (torrentTree m) "announce-list" =
      some (.list (m.announceList.map fun tier => .list (tier.map stringTree))) := honce _
  have hinfo : once (torrentTree m) "info" = some (infoTree m.info) := honce _
  have htiers : announceListOf (torrentTree m) = some m.announceList := by
    unfold announceListOf
    rw [field_of_once hlist, hlist]
    exact vecOf_map fun tier _ => vecOf_strings tier
  have hkeys : (torrentTree m).identifiers = true := by
    rw [torrentTree_eq]
    exact identifiers_dictTree _
  unfold torrentOf
  rw [hkeys, hannounce, htiers, hinfo, Option.bind_some, stringOf_stringTree, Option.bind_some,
    infoOf_infoTree h]
  rfl

/-! ## The integers -/

theorem isI64_natCast (n : Nat) : isI64 n = decide (n < 2 ^ 63) := by
  unfold isI64
  refine decide_eq_decide.mpr ?_
  omega

theorem listFits_eq (ts : List Tree) : Tree.listFits ts = ts.all Tree.integersFit := by
  induction ts with
  | nil => rfl
  | cons t ts ih => rw [Tree.listFits, ih, List.all_cons]

theorem entriesFit_eq (entries : List (List UInt8 × Tree)) :
    Tree.entriesFit entries = entries.all fun e => e.2.integersFit := by
  induction entries with
  | nil => rfl
  | cons e entries ih => rw [Tree.entriesFit, ih, List.all_cons]

theorem integersFit_strings (path : List String) :
    (Tree.list (path.map stringTree)).integersFit = true := by
  rw [Tree.integersFit, listFits_eq, List.all_map]
  exact List.all_eq_true.mpr fun _ _ => rfl

theorem integersFit_dictTree (fields : List (String × Tree)) :
    (dictTree fields).integersFit = fields.all fun f => f.2.integersFit := by
  unfold dictTree
  rw [Tree.integersFit, entriesFit_eq, List.all_map]
  rfl

theorem integersFit_fileTree (file : File) :
    (fileTree file).integersFit = decide (file.length < 2 ^ 63) := by
  rw [fileTree_eq, integersFit_dictTree]
  simp only [List.all_cons, List.all_nil, integersFit_strings, Bool.and_true]
  exact isI64_natCast file.length

/-- The integers of a `DownloadType` are the lengths of its files. -/
theorem integersFit_downloadTypeField (d : DownloadType) :
    (downloadTypeField d).2.integersFit = d.lengths.all fun n => decide (n < 2 ^ 63) := by
  cases d with
  | singleFile length =>
    show isI64 length = _
    rw [isI64_natCast]
    exact (Bool.and_true _).symm
  | multiFile files =>
    show (Tree.list (files.map fileTree)).integersFit = (files.map File.length).all _
    rw [Tree.integersFit, listFits_eq, List.all_map, List.all_map]
    simp only [Function.comp_def, integersFit_fileTree]

/-- The integers of a `Torrent` fit when its lengths are below `2 ^ 63`. The piece
length is a `u32`. -/
theorem integersFit_torrentTree {m : MetaInfo} (h : m.info.Typed) :
    (torrentTree m).integersFit = decide m.info.Fits := by
  have htiers : (Tree.list (m.announceList.map fun tier =>
      .list (tier.map stringTree))).integersFit = true := by
    rw [Tree.integersFit, listFits_eq, List.all_map]
    exact List.all_eq_true.mpr fun tier _ => integersFit_strings tier
  have hlength : (Tree.int m.info.pieceLength).integersFit = true := by
    have := h.pieceLength
    rw [Tree.integersFit, isI64_natCast]
    exact decide_eq_true (by omega)
  have hinfo : (infoTree m.info).integersFit = decide m.info.Fits := by
    rw [infoTree_eq, integersFit_dictTree]
    have hname : (stringTree m.info.name).integersFit = true := rfl
    have hpieces : (Tree.bytes (m.info.pieces.flatMap Vector.toList)).integersFit = true := rfl
    simp only [List.all_cons, List.all_nil, hname, hlength, hpieces, Bool.and_true,
      integersFit_downloadTypeField]
    exact List.decide_forall_mem.symm
  rw [torrentTree_eq, integersFit_dictTree]
  simp only [List.all_cons, List.all_nil, htiers, hinfo, Bool.and_true, Bool.true_and]
  rfl

/-- **A torrent is read as it was written**, when the lengths of its files are
`i64`s, and not at all otherwise. -/
theorem torrent_round_trip (m : MetaInfo) (hm : m.info.Typed) :
    parseMetaInfo (torrentTree m) = if m.info.Fits then some m else none := by
  unfold parseMetaInfo
  rw [integersFit_torrentTree hm, torrentOf_torrentTree hm]
  by_cases h : m.info.Fits
  · rw [if_pos h, if_pos (decide_eq_true h)]
  · rw [if_neg h, if_neg (by rw [decide_eq_false h]; exact Bool.false_ne_true)]

/-- The multi-file torrent of the repository's own test. -/
def secretVid : MetaInfo where
  announce := "udp://tracker.openbittorrent.com:80"
  announceList := []
  info :=
    { name := "secret_vid.mov"
      pieceLength := 256
      pieces := singleMeta.info.pieces
      downloadType := .multiFile [{ length := 20, path := ["dir", "filename1"] },
        { length := 100, path := ["dir", "filename2"] }] }

theorem torrent_round_trip_multi : secretVid.info.Typed ∧
    parseMetaInfo (torrentTree secretVid) = if secretVid.info.Fits then some secretVid else none :=
  have htyped : secretVid.info.Typed := ⟨by decide, by decide⟩
  ⟨htyped, torrent_round_trip secretVid htyped⟩

/-! ## What is accepted -/

/-- What is in a tree with integers that fit has integers that fit. -/
theorem integersFit_field (h : t.integersFit = true) (hget : t.field name = some t') :
    t'.integersFit = true := by
  cases t with
  | dict entries =>
    rw [Tree.integersFit, entriesFit_eq] at h
    exact List.all_eq_true.mp h _ (Tree.mem_of_lookup hget)
  | int n => cases hget
  | bytes b => cases hget
  | list ts => cases hget

theorem uintOf_fits {w n : Nat} (h : t.integersFit = true) (hn : uintOf w t = some n) :
    n < 2 ^ w ∧ n < 2 ^ 63 := by
  refine ⟨uintOf_lt hn, ?_⟩
  obtain rfl := uintOf_inv hn
  rw [Tree.integersFit, isI64_natCast] at h
  exact of_decide_eq_true h

/-- What `mapM` returns comes from an element. -/
theorem mem_of_mapM {α β : Type} {f : α → Option β} {as : List α} {bs : List β}
    (h : as.mapM f = some bs) : ∀ b ∈ bs, ∃ a ∈ as, f a = some b := by
  induction as generalizing bs with
  | nil =>
    rw [List.mapM_nil] at h
    cases h
    intro b hb
    cases hb
  | cons a as ih =>
    rw [List.mapM_cons] at h
    obtain ⟨b, hb, h⟩ := Option.bind_eq_some_iff.mp h
    obtain ⟨bs', hbs, h⟩ := Option.bind_eq_some_iff.mp h
    cases h
    intro b' hb'
    rcases List.mem_cons.mp hb' with rfl | hb'
    · exact ⟨a, List.mem_cons_self .., hb⟩
    · obtain ⟨a', ha', hfa⟩ := ih hbs b' hb'
      exact ⟨a', List.mem_cons_of_mem a ha', hfa⟩

/-- The length of a file that was accepted is in range. -/
theorem fileOf_fits {file : File} (h : t.integersFit = true) (hf : fileOf t = some file) :
    file.length < 2 ^ 64 ∧ file.length < 2 ^ 63 := by
  have hlength : ∃ t', t'.integersFit = true ∧ uintOf 64 t' = some file.length := by
    unfold fileOf at hf
    split at hf
    · -- a file given as the list of its fields
      obtain ⟨n, hn, hf⟩ := Option.bind_eq_some_iff.mp hf
      obtain ⟨path, -, hf⟩ := Option.bind_eq_some_iff.mp hf
      cases hf
      rw [Tree.integersFit, Tree.listFits, Bool.and_eq_true] at h
      exact ⟨_, h.1, hn⟩
    · obtain ⟨n, hn, hf⟩ := Option.bind_eq_some_iff.mp hf
      obtain ⟨path, -, hf⟩ := Option.bind_eq_some_iff.mp hf
      cases hf
      obtain ⟨t', ht', hn⟩ := field_of_bind hn
      exact ⟨t', integersFit_field h ht', hn⟩
  obtain ⟨t', ht', hn⟩ := hlength
  exact uintOf_fits ht' hn

/-- The lengths of a `DownloadType` that was accepted are in range. -/
theorem downloadTypeOf_fits {d : DownloadType} (h : t.integersFit = true)
    (hd : downloadTypeOf t = some d) : ∀ n ∈ d.lengths, n < 2 ^ 64 ∧ n < 2 ^ 63 := by
  unfold downloadTypeOf at hd
  cases hl : (once t "length").bind (uintOf 64) with
  | some length =>
    rw [hl] at hd
    cases hd
    obtain ⟨t', ht', hn⟩ := field_of_bind hl
    intro n hmem
    rw [List.mem_singleton.mp hmem]
    exact uintOf_fits (integersFit_field h ht') hn
  | none =>
    rw [hl] at hd
    obtain ⟨files, hbind, rfl⟩ := Option.map_eq_some_iff.mp hd
    obtain ⟨t', ht', hfiles⟩ := field_of_bind hbind
    have hfit := integersFit_field h ht'
    cases t' with
    | list ts =>
      intro n hmem
      obtain ⟨file, hfile, rfl⟩ := List.mem_map.mp hmem
      obtain ⟨t'', hmem'', hf⟩ := mem_of_mapM hfiles file hfile
      rw [Tree.integersFit, listFits_eq] at hfit
      exact fileOf_fits (List.all_eq_true.mp hfit t'' hmem'') hf
    | int n => cases hfiles
    | bytes b => cases hfiles
    | dict entries => cases hfiles

/-- The numbers of a torrent that is accepted are in range. -/
theorem parse_fits {m : MetaInfo} (h : parseMetaInfo t = some m) : m.info.Typed ∧ m.info.Fits := by
  obtain ⟨hfit, ti, hti, hinfo⟩ := parse_info h
  obtain ⟨-, -, -, hdownload⟩ := infoOf_fields hinfo
  have hlengths := downloadTypeOf_fits (integersFit_field hfit hti) hdownload
  exact ⟨⟨pieceLength_lt hinfo, fun n hn => (hlengths n hn).1⟩, fun n hn => (hlengths n hn).2⟩

/-- **What was read can be written and read again.** The `Torrent` of an accepted
file, which is a dictionary here, survives, whatever keys the file had besides, and
in whatever order. -/
theorem accepted_round_trip (t : Tree) (m : MetaInfo) (h : parseMetaInfo t = some m) :
    parseMetaInfo (torrentTree m) = some m := by
  obtain ⟨htyped, hfits⟩ := parse_fits h
  rw [parseMetaInfo, integersFit_torrentTree htyped, torrentOf_torrentTree htyped]
  exact if_pos (decide_eq_true hfits)

theorem accepted_round_trip_single : parseMetaInfo singleTorrent = some singleMeta ∧
    torrentTree singleMeta ≠ singleTorrent ∧
    parseMetaInfo (torrentTree singleMeta) = some singleMeta := by
  refine ⟨parseMetaInfo_singleTorrent, fun h => ?_,
    accepted_round_trip singleTorrent singleMeta parseMetaInfo_singleTorrent⟩
  have hne : ((torrentTree singleMeta).field "creation date").isSome ≠
      (singleTorrent.field "creation date").isSome := by decide +kernel
  exact hne (congrArg (fun t : Tree => (t.field "creation date").isSome) h)

/-! ## The hash -/

theorem stringTree_inj {s s' : String} : stringTree s = stringTree s' ↔ s = s' := by
  unfold stringTree
  rw [Tree.bytes.injEq, asBytes_inj]

theorem natTree_inj {n n' : Nat} : Tree.int n = Tree.int n' ↔ n = n' := by
  rw [Tree.int.injEq]
  exact Int.ofNat_inj

/-- Files are written apart. -/
theorem fileTree_injective : Function.Injective fileTree := by
  intro file file' h
  have hlength : file.length = file'.length := by
    have hfield := congrArg (Tree.field · "length") h
    simp only [fileTree_eq, field_dictTree] at hfield
    exact natTree_inj.mp (Option.some.inj hfield)
  have hpath : file.path = file'.path := by
    have hfield := congrArg (Tree.field · "path") h
    simp only [fileTree_eq, field_dictTree] at hfield
    exact List.map_injective_iff.mpr (fun _ _ => stringTree_inj.mp)
      (Tree.list.inj (Option.some.inj hfield))
  cases file
  exact congrArg₂ File.mk hlength hpath

/-- The two shapes have different keys. -/
theorem downloadType_eq {info info' : Info} (h : infoTree info = infoTree info') :
    info.downloadType = info'.downloadType := by
  have hlength := congrArg (Tree.field · "length") h
  have hfiles := congrArg (Tree.field · "files") h
  simp only [field_infoTree] at hlength hfiles
  cases hd : info.downloadType with
  | singleFile length =>
    cases hd' : info'.downloadType with
    | singleFile length' =>
      rw [hd, hd'] at hlength
      exact congrArg DownloadType.singleFile (natTree_inj.mp (Option.some.inj hlength))
    | multiFile files' =>
      rw [hd, hd'] at hlength
      cases hlength
  | multiFile files =>
    cases hd' : info'.downloadType with
    | singleFile length' =>
      rw [hd, hd'] at hfiles
      cases hfiles
    | multiFile files' =>
      rw [hd, hd'] at hfiles
      exact congrArg DownloadType.multiFile
        (fileTree_injective.list_map (Tree.list.inj (Option.some.inj hfiles)))

/-- **What `Info::hash` hashes says everything about the torrent.** Two torrents
with different descriptions have different info-hashes, unless SHA-1 collides. -/
theorem hashInput_injective : Function.Injective hashInput := by
  intro info info' h
  have htree : infoTree info = infoTree info' := Tree.encode_inj.mp h
  obtain ⟨hname, hlength, hpieces⟩ := infoTree_fields info
  obtain ⟨hname', hlength', hpieces'⟩ := infoTree_fields info'
  rw [← htree] at hname' hlength' hpieces'
  have hchunks : info.pieces = info'.pieces := by
    rw [← chunksExact_flatMap info.pieces, ← chunksExact_flatMap info'.pieces]
    exact congrArg chunksExact (Tree.bytes.inj (Option.some.inj (hpieces.symm.trans hpieces')))
  have heq := downloadType_eq htree
  cases info
  cases info'
  obtain rfl := stringTree_inj.mp (Option.some.inj (hname.symm.trans hname'))
  obtain rfl := natTree_inj.mp (Option.some.inj (hlength.symm.trans hlength'))
  cases hchunks
  cases heq
  rfl

end Fields

end Bencode

end BitTorrent
