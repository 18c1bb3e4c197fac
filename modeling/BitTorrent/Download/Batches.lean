import BitTorrent.Download.Discipline
import BitTorrent.Lib.Tiling

/-!
# The blocks of a piece, over all calls of `request_blocks`

A piece is requested in batches: `request_blocks` stops when enough is in flight,
and goes on where it stopped when it is called again. `Batches` is any sequence
of such calls, with any number in flight and anything outstanding at each entry.
Whatever the batches, the blocks tile the piece (`Batches.tiles`), and there are
`blocksIn` of them.

`remaining_blocks` is to be this number. It is computed by a rounding division
and cut to 16 bits, where a piece is created and where it is reset, and it is
right for pieces of at most 65535 blocks: `blocks_counted_iff`.

A call asks for intervals that follow one another from `requested` on (`Asks`), and
two calls in a row ask for the intervals of both (`Asks.append`). That there are
calls which request a whole piece is shown, too (`exists_batches`): the statement
about all of them would say nothing otherwise.
-/

namespace BitTorrent

/-- The intervals the messages request, in order. -/
def asked (msgs : List Message) : List (Nat × Nat) :=
  (requestsOf msgs).map fun x => (x.blockBegin, x.blockLen)

/-- The call ends without a panic. -/
def Outcome.Ends {α : Type} (o : Outcome α) (a : α) : Prop := o = .ok a ∨ o = .sendFailed a

/-- Calls for one piece, and what they send. Between two calls blocks may arrive:
these change neither `requested` nor `piece_length`. -/
inductive Batches (p : Profile) (k : Nat) :
    PieceDownload → List Message → PieceDownload → Prop
  | none (dl : PieceDownload) : Batches p k dl [] dl
  | call {dl dl₁ dl₂ : PieceDownload} {r : Requests} {msgs : List Message} {inflight : Nat}
      {blocks : Finset BlockDownload} {sends : Option Nat} (hinflight : inflight < 2 ^ 8)
      (hcall : (requestBlocks p k ⟨dl, inflight, blocks, ⟨sends, []⟩⟩).Ends r)
      (hrequested : dl₁.requested = r.dl.requested) (hlength : dl₁.pieceLength = r.dl.pieceLength)
      (hrest : Batches p k dl₁ msgs dl₂) : Batches p k dl (r.wire.sent ++ msgs) dl₂

/-- A piece that was just created, or reset when the peer choked us. -/
inductive PieceDownload.Fresh (p : Profile) (dl : PieceDownload) : Prop
  | created (cfg : Config) (hp : cfg.profile = p) (index : Nat)
      (h : SeedDownloader.newPiece cfg index = .ok dl)
  | reset (old : PieceDownload) (h : SeedDownloader.resetPiece p old = some dl)

/-- The blocks of a piece of this length are counted, and the count is that of the
blocks requested; these tile the piece. -/
def BlocksCounted (p : Profile) (pieceLength : Nat) : Prop :=
  (∃ num, numBlocks p pieceLength = some num) ∧
  ∀ k dl msgs dl', dl.Fresh p → dl.pieceLength = pieceLength → Batches p k dl msgs dl' →
    dl'.requested = pieceLength →
    Tiles 0 (asked msgs) pieceLength ∧ (∀ e ∈ asked msgs, 0 < e.2 ∧ e.2 ≤ blockSize) ∧
      (asked msgs).length = dl.remainingBlocks

section Batches

variable {p : Profile} {k : Nat} {dl dl' : PieceDownload} {msgs msgs' : List Message}

theorem asked_append (msgs msgs' : List Message) :
    asked (msgs ++ msgs') = asked msgs ++ asked msgs' := by
  unfold asked
  rw [requestsOf_append, List.map_append]

/-- The request of the next block names its interval: the numbers fit in a `u32`. -/
theorem asked_message (hlt : dl.requested < dl.pieceLength) (h32 : dl.pieceLength < 2 ^ 32) :
    asked [(dl.nextBlock k).message] = [(dl.requested, (dl.nextBlock k).blockLen)] := by
  have hle := dl.nextBlock_le k
  unfold asked requestsOf BlockDownload.message
  simp only [List.filterMap_cons, List.filterMap_nil, Message.block?, List.map_cons, List.map_nil,
    UInt32.toNat_ofNat']
  rw [Nat.mod_eq_of_lt (show (dl.nextBlock k).blockBegin < 2 ^ 32 from Nat.lt_trans hlt h32),
    Nat.mod_eq_of_lt (by omega)]
  rfl

/-- What the messages ask for, from `dl` on: the intervals up to the new
`requested`, each a block at most, and as many as there are blocks less to
request. -/
structure Asks (dl : PieceDownload) (msgs : List Message) (dl' : PieceDownload) : Prop where
  length : dl'.pieceLength = dl.pieceLength
  requested_le : dl'.requested ≤ dl'.pieceLength
  tiles : Tiles dl.requested (asked msgs) dl'.requested
  block : ∀ e ∈ asked msgs, 0 < e.2 ∧ e.2 ≤ blockSize
  count : (asked msgs).length + dl'.unrequested = dl.unrequested

/-- Nothing is asked for by no message. -/
theorem Asks.none (hle : dl.requested ≤ dl.pieceLength) : Asks dl [] dl where
  length := rfl
  requested_le := hle
  tiles := rfl
  block := fun _ he => absurd he List.not_mem_nil
  count := Nat.zero_add _

/-- What was asked for up to `dl₁` and from there on is asked for in all. -/
theorem Asks.append {dl₁ : PieceDownload} (h : Asks dl msgs dl₁) (h' : Asks dl₁ msgs' dl') :
    Asks dl (msgs ++ msgs') dl' where
  length := h'.length.trans h.length
  requested_le := h'.requested_le
  tiles := by
    rw [asked_append]
    exact h.tiles.append h'.tiles
  block := by
    intro e he
    rw [asked_append] at he
    exact (List.mem_append.mp he).elim (h.block e) (h'.block e)
  count := by
    have hfirst := h.count
    have hsecond := h'.count
    rw [asked_append, List.length_append]
    omega

/-- One request. -/
theorem Asks.next (hlt : dl.requested < dl.pieceLength) (h32 : dl.pieceLength < 2 ^ 32) (k : Nat) :
    Asks dl [(dl.nextBlock k).message] (dl.advance k) := by
  have hle := dl.nextBlock_le k
  have hlen := dl.nextBlock_blockLen k
  refine ⟨rfl, ?_, ?_, ?_, ?_⟩
  · show dl.requested + (dl.nextBlock k).blockLen ≤ dl.pieceLength
    omega
  · rw [asked_message hlt h32]
    exact ⟨rfl, rfl⟩
  · intro e he
    rw [asked_message hlt h32] at he
    rw [List.mem_singleton.mp he]
    exact ⟨PieceDownload.nextBlock_pos hlt k, by dsimp only; omega⟩
  · rw [asked_message hlt h32, List.length_singleton, Nat.add_comm]
    exact SeedDownloader.unrequested_advance hlt k

/-- One call. The invariant of its loop is `Asks` itself. -/
theorem asks_call {inflight : Nat} {blocks : Finset BlockDownload}
    {sends : Option Nat} {r : Requests}
    (hle : dl.requested ≤ dl.pieceLength) (h32 : dl.pieceLength < 2 ^ 32)
    (h : (requestBlocks p k ⟨dl, inflight, blocks, ⟨sends, []⟩⟩).Ends r) :
    Asks dl r.wire.sent r.dl := by
  have hrule := requestBlocks_rule (p := p) (k := k) (P := fun r => Asks dl r.wire.sent r.dl)
    (Q := fun r => Asks dl r.wire.sent r.dl)
    (fun r inflight wire hr hlt _ _ hsend => by
      show Asks dl wire.sent (r.dl.advance k)
      rw [send_sent hsend]
      exact hr.append (Asks.next hlt (hr.length ▸ h32) k))
    (fun _ hr _ => hr) (fun _ hr _ => hr) ⟨dl, inflight, blocks, ⟨sends, []⟩⟩ (Asks.none hle)
  rcases h with hok | hfailed
  · rw [hok] at hrule
    exact hrule.1
  · rw [hfailed] at hrule
    exact hrule.1

/-- Any number of calls for a piece ask for its intervals in order. By induction on
the calls. -/
theorem Batches.asks (h : Batches p k dl msgs dl') :
    dl.requested ≤ dl.pieceLength → dl.pieceLength < 2 ^ 32 → Asks dl msgs dl' := by
  induction h with
  | none dl => exact fun hle _ => Asks.none hle
  | @call dl dl₁ dl₂ r msgs inflight blocks sends hinflight hcall hrequested hlength hrest ih =>
    intro hle h32
    have hfirst := asks_call hle h32 hcall
    -- the piece as the call left it, and as the next call finds it
    have hmid : Asks dl r.wire.sent dl₁ := by
      refine ⟨hlength.trans hfirst.length, ?_, ?_, hfirst.block, ?_⟩
      · rw [hrequested, hlength]
        exact hfirst.requested_le
      · rw [hrequested]
        exact hfirst.tiles
      · unfold PieceDownload.unrequested
        rw [hrequested, hlength]
        exact hfirst.count
    exact hmid.append (ih hmid.requested_le (hmid.length ▸ h32))

/-- **The blocks tile the piece**, and their number is that of its blocks. -/
theorem Batches.tiles (h : Batches p k dl msgs dl') (h0 : dl.requested = 0)
    (h32 : dl.pieceLength < 2 ^ 32) (hdone : dl'.requested = dl.pieceLength) :
    Tiles 0 (asked msgs) dl.pieceLength ∧ (∀ e ∈ asked msgs, 0 < e.2 ∧ e.2 ≤ blockSize) ∧
      (asked msgs).length = blocksIn dl.pieceLength := by
  have hasks := h.asks (by omega) h32
  have htiles := hasks.tiles
  have hcount := hasks.count
  rw [h0, hdone] at htiles
  rw [PieceDownload.unrequested_of_le (by rw [hdone, hasks.length])] at hcount
  refine ⟨htiles, hasks.block, ?_⟩
  unfold PieceDownload.unrequested at hcount
  rw [h0, Nat.sub_zero] at hcount
  omega

/-- A piece is requested to its end, for instance with one block a call. -/
theorem exists_batches (p : Profile) (k : Nat) :
    ∀ (left : Nat) {dl : PieceDownload}, dl.pieceLength - dl.requested = left →
      dl.requested ≤ dl.pieceLength →
      ∃ msgs dl', Batches p k dl msgs dl' ∧ dl'.requested = dl.pieceLength := by
  intro left
  induction left using Nat.strongRecOn with
  | ind left ih =>
    intro dl hleft hle
    by_cases hdone : dl.requested = dl.pieceLength
    · exact ⟨[], dl, .none dl, hdone⟩
    · have hlt : dl.requested < dl.pieceLength := by omega
      have hpos := PieceDownload.nextBlock_pos hlt k
      have hnext := dl.nextBlock_le k
      -- four blocks are in flight, so the call stops after one more
      have hcall : requestBlocks p k ⟨dl, 4, ∅, ⟨none, []⟩⟩ =
          .ok (Requests.push ⟨dl, 4, ∅, ⟨none, []⟩⟩ k 5 ⟨none, [(dl.nextBlock k).message]⟩) := by
        unfold requestBlocks
        rw [dif_pos hlt]
        simp only [Wire.send, List.nil_append, Finset.notMem_empty, if_false]
        rw [p.add_of_lt (by omega)]
        exact if_pos rfl
      obtain ⟨msgs, dl', hbatches, hend⟩ := ih (dl.pieceLength - (dl.advance k).requested)
        (by show dl.pieceLength - (dl.requested + _) < left; omega)
        (show (dl.advance k).pieceLength - (dl.advance k).requested = _ from rfl)
        (by show dl.requested + _ ≤ dl.pieceLength; omega)
      exact ⟨_, dl', .call (by omega) (Or.inl hcall) rfl rfl hbatches, hend⟩

/-- A fresh piece has no block requested, and its counter is `num_blocks` cast to
`u16`. -/
theorem PieceDownload.Fresh.counted (h : dl.Fresh p) :
    dl.requested = 0 ∧ ∃ num, numBlocks p dl.pieceLength = some num ∧
      dl.remainingBlocks = asU16 num := by
  cases h with
  | created cfg hp index h =>
    subst hp
    unfold SeedDownloader.newPiece at h
    split at h
    next => cases h
    next =>
      split at h
      next => cases h
      next num hnum =>
        split at h
        next => cases h
        next =>
          cases h
          exact ⟨rfl, num, hnum, rfl⟩
  | reset old h =>
    obtain ⟨num, hnum, rfl⟩ := Option.map_eq_some_iff.mp h
    exact ⟨rfl, num, hnum, rfl⟩

/-- A piece of more than 65535 blocks is not counted right. -/
theorem not_blocksCounted (p : Profile) {pieceLength : Nat} (h32 : pieceLength < 2 ^ 32)
    (hlarge : 65535 * blockSize < pieceLength) : ¬ BlocksCounted p pieceLength := by
  intro hcounted
  obtain ⟨⟨num, hnum⟩, hall⟩ := hcounted
  have hB : blockSize = 16384 := rfl
  let old : PieceDownload := ⟨Vector.replicate 20 0, pieceLength, 0, 0, []⟩
  let dl : PieceDownload := { old with requested := 0, remainingBlocks := asU16 num }
  have hreset : SeedDownloader.resetPiece p old = some dl :=
    congrArg (Option.map _) hnum
  obtain ⟨msgs, dl', hbatches, hend⟩ := exists_batches p 0 pieceLength
    (show dl.pieceLength - dl.requested = _ from rfl) (Nat.zero_le _)
  have hcount := (hall 0 dl msgs dl' (.reset old hreset) rfl hbatches hend).2.2
  rw [(hbatches.tiles rfl h32 hend).2.2] at hcount
  have hu16 : asU16 num < 2 ^ 16 := Nat.mod_lt _ (Nat.two_pow_pos 16)
  change blocksIn pieceLength = asU16 num at hcount
  unfold blocksIn at hcount
  rw [hB] at hcount hlarge
  omega

/-- **The blocks are counted right exactly in pieces of at most 65535 blocks.** -/
theorem blocks_counted_iff (p : Profile) (pieceLength : Nat) (h32 : pieceLength < 2 ^ 32) :
    BlocksCounted p pieceLength ↔ pieceLength ≤ 65535 * blockSize := by
  constructor
  · intro hcounted
    by_contra hlarge
    exact not_blocksCounted p h32 (by omega) hcounted
  · intro hsmall
    have hB : blockSize = 16384 := rfl
    have hnum : numBlocks p pieceLength = some (blocksIn pieceLength) :=
      numBlocks_of_lt p (by rw [hB] at hsmall ⊢; omega)
    refine ⟨⟨_, hnum⟩, fun k dl msgs dl' hfresh hlen hbatches hend => ?_⟩
    obtain ⟨h0, num, hnum', hrem⟩ := hfresh.counted
    obtain ⟨htiles, hblock, hcount⟩ := hbatches.tiles h0 (by omega) (hend.trans hlen.symm)
    rw [hlen] at htiles hcount hnum'
    refine ⟨htiles, hblock, ?_⟩
    rw [hcount, hrem, ← Option.some.inj (hnum.symm.trans hnum')]
    -- the count fits in 16 bits
    refine (Nat.mod_eq_of_lt ?_).symm
    unfold blocksIn
    rw [hB] at hsmall ⊢
    omega

/-- A piece of three blocks. -/
theorem blocks_counted_iff_three : BlocksCounted .dev 40000 :=
  (blocks_counted_iff .dev 40000 (by omega)).mpr (by decide)

/-- The least piece that is not: 65536 blocks are counted as none. -/
theorem large_piece_miscounted :
    ¬ BlocksCounted .release 1073725441 ∧ numBlocks .release 1073725441 = some 65536 ∧
      asU16 65536 = 0 :=
  ⟨not_blocksCounted .release (by omega) (by decide), by decide, rfl⟩

end Batches

end BitTorrent
