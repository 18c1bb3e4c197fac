import BitTorrent.Bencode.RoundTrip
import BitTorrent.Lib.FormUrl
import BitTorrent.Tracker.Peers

/-!
# The HTTP tracker (`tracker/http.rs`)

`query` is the query of the URL that `build_url` asks for: the info-hash, encoded
by `url_encode_bytes`, and the pairs of `url_encode`. It is ASCII and contains
nothing that a URL would have to escape again, and the tracker reads off it the
very request (`query_reads_back`).

`discoverReply` is what `discover` makes of the response, given as its tree. It
returns the peers that the tracker sent, unless it also sent a reason to fail
(`discoverReply_eq_ok`), and they are the peers a UDP tracker would have announced
with the same bytes (`compact_agree`).

Mirroring notes:

* `url_encode_bytes` fills its vector by index, as in the source, and its slices and
  `hex::encode_to_slice` are checked. `url_encode` appends to a text;
* the URL of the tracker is left out, and so is the request itself: the response is
  an argument;
* the response is an untagged enum. It is read as a failure if it has a
  `failure reason` that can be read, else as a success, and further keys are ignored;
* the errors are told apart by what fails, without their texts.
-/

namespace BitTorrent

namespace Http

open FormUrl Bencode

/-! ## The request -/

/-- `Event` of a request. -/
inductive Event
  | started
  | completed
  | stopped
  | empty
  deriving DecidableEq, Repr

/-- The value of the query's `event`. -/
def Event.text : Event → String
  | .started => "started"
  | .completed => "completed"
  | .stopped => "stopped"
  | .empty => "empty"

/-- `DiscoverRequest`. -/
structure DiscoverRequest where
  infoHash : Digest
  peerId : String
  ip : Option String
  port : UInt16
  uploaded : UInt64
  downloaded : UInt64
  left : UInt64
  event : Option Event
  compact : Option Bool
  deriving DecidableEq, Repr

/-- `DiscoverRequest::new`. -/
def DiscoverRequest.new (infoHash : Digest) (peerId : String) (left : UInt64) :
    DiscoverRequest where
  infoHash := infoHash
  peerId := peerId
  ip := none
  port := 6881
  uploaded := 0
  downloaded := 0
  left := left
  event := some .started
  compact := some true

/-- A pair of texts. -/
def pair (name value : String) : Pair := (asBytes name, asBytes value)

/-- The pairs that every request has. -/
def DiscoverRequest.always (req : DiscoverRequest) : List Pair :=
  [pair "peer_id" req.peerId, (asBytes "port", decimal req.port.toNat),
    (asBytes "uploaded", decimal req.uploaded.toNat),
    (asBytes "downloaded", decimal req.downloaded.toNat), (asBytes "left", decimal req.left.toNat)]

/-- `url_encode`, as the bytes of the text. -/
def DiscoverRequest.urlEncode (req : DiscoverRequest) : List UInt8 :=
  let ser := extendPairs [] req.always
  let ser := match req.ip with
    | some ip => appendPair ser (pair "ip" ip)
    | none => ser
  let ser := match req.event with
    | some event => appendPair ser (pair "event" event.text)
    | none => ser
  if req.compact.getD false then appendPair ser (pair "compact" "1") else ser

/-- What can end `url_encode_bytes`: the slice of the result,
`hex::encode_to_slice`, or `String::from_utf8`. `query_reads_back` has none of
them. -/
inductive EncodeError
  | panicked
  | hex
  | utf8
  deriving DecidableEq, Repr

/-- `hex::encode_to_slice` into `n` bytes, which have to be twice as many. -/
def encodeToSlice (input : List UInt8) (n : Nat) : Except EncodeError (List UInt8) :=
  if n = 2 * input.length then .ok (input.flatMap (hexByte .lower)) else .error .hex

/-- `Option::ok_or`, for an option that is `None` when the code panics. -/
def orPanic {α : Type} (o : Option α) : Except EncodeError α := o.elim (.error .panicked) .ok

/-- One round of the loop in `url_encode_bytes`. -/
def encodeByte (res : List UInt8) (e : UInt8 × Nat) : Except EncodeError (List UInt8) := do
  let idx := e.2 * 3
  if res.length ≤ idx then .error .panicked
  else
    let res := res.set idx '%'.toUInt8
    let idx := idx + 1
    let digits ← encodeToSlice [e.1] (idx + 2 - idx)
    orPanic (splice res idx (idx + 2) digits)

/-- `url_encode_bytes`: three bytes for each byte, over a buffer of zeros. -/
def urlEncodeBytes (bytes : List UInt8) : Except EncodeError String := do
  let res ← bytes.zipIdx.foldlM encodeByte (List.replicate (3 * bytes.length) 0)
  (fromUtf8 res).mapError fun _ => .utf8

/-- The query of `build_url`. -/
def DiscoverRequest.query (req : DiscoverRequest) : Except EncodeError (List UInt8) := do
  let hash ← urlEncodeBytes req.infoHash.toList
  return asBytes "info_hash=" ++ (asBytes hash ++ '&'.toUInt8 :: req.urlEncode)

/-! ## What the tracker reads -/

/-- All pairs of `url_encode`, in order. -/
def DiscoverRequest.pairs (req : DiscoverRequest) : List Pair :=
  req.always ++ ((req.ip.map (pair "ip")).toList ++
    ((req.event.map fun e => pair "event" e.text).toList ++
      if req.compact.getD false then [pair "compact" "1"] else []))

section Query

variable {bytes : List UInt8} {c : UInt8}

theorem lt_of_unchanged (h : unchanged c = true) : c.toNat < 128 := by
  unfold unchanged at h
  simp only [Bool.or_eq_true, Bool.and_eq_true, decide_eq_true_eq, UInt8.le_iff_toNat_le] at h
  rcases h with (((((rfl | rfl) | rfl) | rfl) | h) | h) | h
  · decide
  · decide
  · decide
  · decide
  · exact Nat.lt_of_le_of_lt h.2 (by decide)
  · exact Nat.lt_of_le_of_lt h.2 (by decide)
  · exact Nat.lt_of_le_of_lt h.2 (by decide)

theorem lt_of_inComponent (h : InComponent c) : c.toNat < 128 := by
  rcases h with h | rfl | rfl
  · exact lt_of_unchanged h
  · decide
  · decide

/-- After the round of the byte `bytes[i]` the first `i + 1` bytes are encoded. -/
theorem encodeByte_eq {done : List UInt8} {i : Nat} (hdone : done.length = i * 3) (b : UInt8)
    (n : Nat) : encodeByte (done ++ List.replicate (3 * (n + 1)) 0) (b, i) =
      .ok (done ++ percentEncode .lower b ++ List.replicate (3 * n) 0) := by
  have hzeros : List.replicate (3 * (n + 1)) (0 : UInt8) =
      0 :: 0 :: 0 :: List.replicate (3 * n) 0 := by
    rw [show 3 * (n + 1) = 3 * n + 3 by omega]
    rfl
  have hset : (done ++ 0 :: 0 :: 0 :: List.replicate (3 * n) 0).set (i * 3) '%'.toUInt8 =
      done ++ ['%'.toUInt8] ++ 0 :: 0 :: List.replicate (3 * n) 0 := by
    rw [List.set_append_right _ _ (by omega), hdone, Nat.sub_self, List.set_cons_zero,
      List.append_assoc, List.singleton_append]
  have hlen : (done ++ ['%'.toUInt8]).length = i * 3 + 1 := by
    rw [List.length_append, hdone, List.length_singleton]
  have hsplice : splice (done ++ ['%'.toUInt8] ++ 0 :: 0 :: List.replicate (3 * n) 0) (i * 3 + 1)
      (i * 3 + 1 + 2) (hexByte .lower b) =
      some (done ++ percentEncode .lower b ++ List.replicate (3 * n) 0) := by
    rw [splice_of_le (by omega) (by simp only [List.length_append, List.length_cons, hdone]; omega),
      List.take_left' hlen, ← List.drop_drop, List.drop_left' hlen]
    simp only [List.append_assoc]
    rfl
  have hdigits : encodeToSlice [b] (i * 3 + 1 + 2 - (i * 3 + 1)) = .ok (hexByte .lower b) := by
    rw [Nat.add_sub_cancel_left]
    rfl
  unfold encodeByte
  dsimp only
  rw [hzeros, if_neg (by simp only [List.length_append, List.length_cons, hdone]; omega), hset,
    hdigits]
  exact congrArg orPanic hsplice

/-- The loop writes an escape for each byte. -/
theorem encodeBytes_eq {done : List UInt8} {i : Nat} (hdone : done.length = i * 3) :
    (bytes.zipIdx i).foldlM encodeByte (done ++ List.replicate (3 * bytes.length) 0) =
      .ok (done ++ bytes.flatMap (percentEncode .lower)) := by
  induction bytes generalizing done i with
  | nil => rfl
  | cons b bytes ih =>
    have hlen : (done ++ percentEncode .lower b).length = (i + 1) * 3 := by
      rw [List.length_append, hdone]
      show i * 3 + 3 = _
      omega
    rw [List.zipIdx_cons, List.foldlM_cons, List.length_cons, encodeByte_eq hdone]
    exact (ih hlen).trans (by rw [List.flatMap_cons, List.append_assoc])

/-- No index is out of bounds, and the text is UTF-8. -/
theorem urlEncodeBytes_eq (bytes : List UInt8) :
    ∃ s, urlEncodeBytes bytes = .ok s ∧ asBytes s = bytes.flatMap (percentEncode .lower) := by
  have hspells := spells_percent .lower bytes
  obtain ⟨s, hs⟩ := fromUtf8_ascii fun c hc => lt_of_inComponent (hspells.inComponent c hc)
  have hfold := @encodeBytes_eq bytes [] 0 rfl
  refine ⟨s, ?_, fromUtf8_eq_ok.mp hs⟩
  unfold urlEncodeBytes
  rw [List.nil_append, List.nil_append] at hfold
  rw [hfold]
  show (fromUtf8 (bytes.flatMap (percentEncode .lower))).mapError _ = _
  rw [hs]
  rfl

/-- What `url_encode` serializes are the pairs of the request. -/
theorem urlEncode_eq (req : DiscoverRequest) : req.urlEncode = extendPairs [] req.pairs := by
  unfold DiscoverRequest.urlEncode DiscoverRequest.pairs extendPairs
  rw [List.foldl_append, List.foldl_append, List.foldl_append]
  generalize req.always.foldl appendPair [] = ser
  cases req.ip <;> cases req.event <;> cases req.compact.getD false <;>
    simp only [Option.map_some, Option.map_none, Option.toList_some, Option.toList_none,
      List.foldl_cons, List.foldl_nil, Bool.false_eq_true, if_true, if_false]

/-- **The tracker reads the request off the query.** The text needs no further
escapes, so `set_query` leaves it as it is. -/
theorem query_reads_back (req : DiscoverRequest) : ∃ q, req.query = .ok q ∧
    parse q = (asBytes "info_hash", req.infoHash.toList) :: req.pairs ∧ ∀ c ∈ q, InQuery c := by
  obtain ⟨hash, hok, hbytes⟩ := urlEncodeBytes_eq req.infoHash.toList
  have hname : Spells (asBytes "info_hash") (asBytes "info_hash") := spells_self (by decide +kernel)
  have hvalue : Spells (asBytes hash) req.infoHash.toList := hbytes ▸ spells_percent .lower _
  have hequals : asBytes "info_hash=" = asBytes "info_hash" ++ ['='.toUInt8] := by decide +kernel
  let q := asBytes "info_hash=" ++ (asBytes hash ++ '&'.toUInt8 :: req.urlEncode)
  have hq : q = (asBytes "info_hash" ++ '='.toUInt8 :: asBytes hash) ++
      '&'.toUInt8 :: req.urlEncode := by
    show asBytes "info_hash=" ++ _ = _
    rw [hequals, List.append_assoc, List.append_assoc]
    rfl
  refine ⟨q, ?_, ?_, ?_⟩
  · unfold DiscoverRequest.query
    rw [hok]
    rfl
  · rw [hq, parse_join, parse_pair hname hvalue, urlEncode_eq, parse_extendPairs]
    rfl
  · intro c hc
    rw [hq] at hc
    rcases List.mem_append.mp hc with hc | hc
    · exact inQuery_pair hname hvalue c hc
    · rcases List.mem_cons.mp hc with rfl | hc
      · exact Or.inr (Or.inr rfl)
      · rw [urlEncode_eq] at hc
        exact inQuery_extendPairs (fun c hc => by cases hc) req.pairs c hc

end Query

/-! ## The response -/

/-- `TrackerResponse`. -/
inductive TrackerResponse
  | failure (reason : String)
  | success (interval : Nat) (peers : List Peer)
  deriving DecidableEq, Repr

/-- The first shape of the untagged enum. -/
def failureOf (t : Tree) : Option TrackerResponse :=
  ((once t "failure reason").bind stringOf).map .failure

/-- The second shape of the untagged enum. -/
def successOf (t : Tree) : Option TrackerResponse := do
  let interval ← (once t "interval").bind (uintOf 64)
  let peers ← (once t "peers").bind fun t => (peersOf t).toOption
  return .success interval peers

/-- The untagged enum: the first variant that the response can be decoded to. -/
def trackerResponseOf (t : Tree) : Option TrackerResponse :=
  if t.integersFit then (failureOf t).or (successOf t) else none

/-- What can end `discover`, without the texts. -/
inductive DiscoverError
  | decode
  | failure (reason : String)
  deriving DecidableEq, Repr

/-- The result of `discover` for a response. -/
def outcome : Option TrackerResponse → Except DiscoverError (List Peer)
  | none => .error .decode
  | some (.failure reason) => .error (.failure reason)
  | some (.success _ peers) => .ok peers

/-- `discover`, from the response on. -/
def discoverReply (t : Tree) : Except DiscoverError (List Peer) := outcome (trackerResponseOf t)

/-- A response with `v` for its peers. -/
def successTree (interval : Nat) (v : List UInt8) : Tree :=
  dictTree [("interval", .int interval), ("peers", .bytes v)]

section Response

variable {t t' : Tree} {peers : List Peer} {name : String}

/-- What is in a tree with integers that fit has integers that fit. -/
theorem integersFit_once (h : t.integersFit = true) (hget : once t name = some t') :
    t'.integersFit = true := by
  cases t with
  | dict entries =>
    simp only [once] at hget
    split at hget
    · next e heq =>
      obtain rfl := Option.some.inj hget
      have hmem : e ∈ entries.filter fun e => e.1 = asBytes name := heq ▸ List.mem_cons_self ..
      rw [Tree.integersFit, entriesFit_eq] at h
      exact List.all_eq_true.mp h e (List.mem_filter.mp hmem).1
    · cases hget
  | int n => cases hget
  | bytes b => cases hget
  | list ts => cases hget

theorem stringOf_eq_some {s : String} : stringOf t = some s ↔ t = stringTree s := by
  constructor
  · exact fun h => (stringOf_inv h).symm
  · intro h
    rw [h, stringOf_stringTree]

/-- When the first shape does not fit. -/
theorem failureOf_eq_none : failureOf t = none ↔
    ∀ reason, once t "failure reason" ≠ some (stringTree reason) := by
  unfold failureOf
  rw [Option.map_eq_none_iff, Option.eq_none_iff_forall_not_mem]
  refine forall_congr' fun reason => not_congr ?_
  rw [Option.mem_def, Option.bind_eq_some_iff]
  constructor
  · intro h
    obtain ⟨t', ht', hs⟩ := h
    rw [ht', stringOf_eq_some.mp hs]
  · exact fun h => ⟨_, h, stringOf_stringTree reason⟩

/-- What `Peers` is read from. -/
theorem peersOf_eq_ok : (peersOf t).toOption = some peers ↔
    t = .bytes (peers.flatMap Peer.bytes) ∧ ∀ peer ∈ peers, peer.id = none := by
  constructor
  · intro h
    have hok : peersOf t = .ok peers := by
      cases hp : peersOf t with
      | error e =>
        rw [hp] at h
        cases h
      | ok ps =>
        rw [hp] at h
        exact congrArg Except.ok (Option.some.inj h)
    cases t with
    | bytes v =>
      rw [Tree.bytes.injEq]
      exact visitBytes_eq_ok.mp hok
    | int n => cases hok
    | list ts => cases hok
    | dict entries => cases hok
  · intro h
    obtain ⟨rfl, hid⟩ := h
    exact congrArg Except.toOption (visitBytes_eq_ok.mpr ⟨rfl, hid⟩)

/-- When the second shape fits. -/
theorem successOf_eq_some (h : t.integersFit = true) :
    (∃ n, successOf t = some (.success n peers)) ↔
      (∃ n : Nat, once t "interval" = some (.int n)) ∧
      once t "peers" = some (.bytes (peers.flatMap Peer.bytes)) ∧
        ∀ peer ∈ peers, peer.id = none := by
  constructor
  · intro hs
    obtain ⟨n, hs⟩ := hs
    obtain ⟨interval, hinterval, hs⟩ := Option.bind_eq_some_iff.mp hs
    obtain ⟨ps, hps, hs⟩ := Option.bind_eq_some_iff.mp hs
    cases hs
    obtain ⟨ti, hti, hint⟩ := Option.bind_eq_some_iff.mp hinterval
    obtain ⟨tp, htp, hps⟩ := Option.bind_eq_some_iff.mp hps
    obtain ⟨rfl, hid⟩ := peersOf_eq_ok.mp hps
    exact ⟨⟨n, by rw [hti, uintOf_inv hint]⟩, htp, hid⟩
  · intro hs
    obtain ⟨⟨n, hinterval⟩, hpeers, hid⟩ := hs
    have hn := integersFit_once h hinterval
    rw [Tree.integersFit, isI64_natCast] at hn
    have hlt := of_decide_eq_true hn
    refine ⟨n, ?_⟩
    unfold successOf
    rw [hinterval, hpeers, Option.bind_some, uintOf_int (by omega), Option.bind_some,
      peersOf_eq_ok.mpr ⟨rfl, hid⟩]
    rfl

/-- Only a success returns peers. -/
theorem outcome_eq_ok {o : Option TrackerResponse} :
    outcome o = .ok peers ↔ ∃ n, o = some (.success n peers) := by
  constructor
  · intro h
    cases o with
    | none => cases h
    | some resp =>
      cases resp with
      | failure reason => cases h
      | success n ps =>
        obtain rfl := Except.ok.inj h
        exact ⟨n, rfl⟩
  · intro h
    obtain ⟨n, rfl⟩ := h
    rfl

/-- **The peers are those that the response carries.** A reason to fail comes
first, and a response without it has to have both fields once. -/
theorem discoverReply_eq_ok (t : Tree) (peers : List Peer) : discoverReply t = .ok peers ↔
    t.integersFit ∧ (∀ reason, once t "failure reason" ≠ some (stringTree reason)) ∧
    (∃ n : Nat, once t "interval" = some (.int n)) ∧
    once t "peers" = some (.bytes (peers.flatMap Peer.bytes)) ∧ ∀ peer ∈ peers, peer.id = none := by
  unfold discoverReply trackerResponseOf
  rw [outcome_eq_ok, ← failureOf_eq_none]
  by_cases hfit : t.integersFit
  · rw [if_pos hfit, ← successOf_eq_some hfit]
    cases hf : failureOf t with
    | none => simp only [Option.none_or, hfit, true_and]
    | some resp =>
      -- a failure, whatever else there is
      obtain ⟨reason, -, rfl⟩ := Option.map_eq_some_iff.mp hf
      constructor
      · intro h
        obtain ⟨n, h⟩ := h
        cases h
      · intro h
        cases h.2.1
  · rw [if_neg hfit]
    constructor
    · intro h
      obtain ⟨n, h⟩ := h
      cases h
    · exact fun h => absurd h.1 hfit

/-- The fields of a response with nothing but an interval and peers. -/
theorem once_successTree (n : Nat) (v : List UInt8) :
    once (successTree n v) "failure reason" = none ∧
    once (successTree n v) "interval" = some (.int n) ∧
    once (successTree n v) "peers" = some (.bytes v) := by
  have honce : ∀ name, once (successTree n v) name =
      [("interval", .int n), ("peers", Tree.bytes v)].lookup name :=
    once_dictTree (by show ["interval", "peers"].Nodup; decide)
  exact ⟨honce _, honce _, honce _⟩

/-- Such a response is accepted when its peers can be read. -/
theorem discoverReply_successTree {n : Nat} {v : List UInt8} (hn : n < 2 ^ 63) :
    discoverReply (successTree n v) = .ok peers ↔ visitBytes v = .ok peers := by
  obtain ⟨hfailure, hinterval, hpeers⟩ := once_successTree n v
  have hfit : (successTree n v).integersFit = true := by
    unfold successTree
    rw [integersFit_dictTree]
    simp only [List.all_cons, List.all_nil, Tree.integersFit, isI64_natCast, decide_eq_true hn,
      Bool.and_true]
  have hfailed : failureOf (successTree n v) = none := by
    rw [failureOf_eq_none, hfailure]
    intro reason h
    cases h
  unfold discoverReply trackerResponseOf
  rw [outcome_eq_ok, if_pos hfit, hfailed, Option.none_or, successOf_eq_some hfit, hinterval,
    hpeers, Option.some.injEq, Tree.bytes.injEq, visitBytes_eq_ok]
  exact and_iff_right ⟨n, rfl⟩

/-- **Both trackers give the same peers.** The bytes behind the header of a UDP
response that fits into the buffer are read as the ones in a HTTP response. -/
theorem compact_agree (txId interval leechers seeders : UInt32) (now n : Nat) (v : List UInt8)
    (t : Udp.UdpTracker) (addrs : List Udp.SocketAddr) (hempty : t.buf.data = [])
    (hroom : 20 + v.length ≤ t.buf.capacity) (hn : n < 2 ^ 63) :
    (∃ t', Udp.announceReply txId (Udp.response txId interval leechers seeders [] ++ v) now t =
      (.ok (addrs, seeders), t')) ↔
    ∃ peers, discoverReply (successTree n v) = .ok peers ∧ peers.map Peer.addr = addrs := by
  have hheader := Udp.length_response txId interval leechers seeders []
  rw [List.length_nil] at hheader
  have hdata : (t.buf.recv (Udp.response txId interval leechers seeders [] ++ v)).data =
      Udp.response txId interval leechers seeders [] ++ v :=
    BytesMut.recv_data_of_le hempty (by rw [List.length_append]; omega)
  -- what the visitor accepts is a response as it is sent
  have hread : ∀ peers, visitBytes v = .ok peers → ∃ t', Udp.announceReply txId
      (Udp.response txId interval leechers seeders [] ++ v) now t =
        (.ok (peers.map Peer.addr, seeders), t') := by
    intro peers hv
    obtain ⟨hbytes, -⟩ := visitBytes_eq_ok.mp hv
    have hsent : Udp.response txId interval leechers seeders [] ++ v =
        Udp.response txId interval leechers seeders (peers.map Peer.addr) := by
      rw [hbytes]
      simp only [Udp.response, List.flatMap_nil, List.append_nil, List.append_assoc,
        List.flatMap_map]
      rfl
    exact Udp.announceReply_of_eq (hdata.trans hsent)
  constructor
  · intro h
    obtain ⟨t', h⟩ := h
    have hlen := Udp.length_of_announceReply h
    rw [hdata, List.length_append, hheader] at hlen
    have hv : visitBytes v = .ok (chunkPeers v) := if_neg (by omega)
    refine ⟨chunkPeers v, (discoverReply_successTree hn).mpr hv, ?_⟩
    obtain ⟨t'', h'⟩ := hread _ hv
    rw [h] at h'
    exact (congrArg Prod.fst (Except.ok.inj (Prod.mk.inj h').1)).symm
  · intro h
    obtain ⟨peers, hok, rfl⟩ := h
    exact hread peers ((discoverReply_successTree hn).mp hok)

/-- A tracker with an empty buffer. -/
def fresh : Udp.UdpTracker where
  peerPort := 80
  buf := .withCapacity 512
  key := 0
  connId := 0
  connIdTs := 0
  nextAnnounce := 0

theorem compact_agree_one :
    (∃ t', Udp.announceReply 7 (Udp.response 7 1800 0 9 [] ++ [127, 0, 0, 1, 26, 225]) 0 fresh =
      (.ok ([⟨0x7F000001, 6881⟩], 9), t')) ↔
    ∃ peers, discoverReply (successTree 1800 [127, 0, 0, 1, 26, 225]) = .ok peers ∧
      peers.map Peer.addr = [⟨0x7F000001, 6881⟩] :=
  compact_agree 7 1800 0 9 0 1800 [127, 0, 0, 1, 26, 225] fresh _ rfl (by decide) (by decide)

end Response

end Http

end BitTorrent
