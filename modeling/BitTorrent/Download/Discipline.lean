import BitTorrent.Download.Assembly

/-!
# Requests on the wire

A run of one downloader with what can be seen of it: the messages its peer sent,
the pieces it picked and what it sent itself. `Disciplined` is what a peer can
rely on. Every request is for bytes of the torrent, of a piece that was missing
when it was picked, made while the peer does not choke us; and no byte is
requested twice unless a choke came in between.

The last part rests on three records that have to fit together. A request of a
pending piece begins at `requested`, and what was requested of it before lies
below. A piece that is no longer pending was set, so the picker never yields it
again. And a choke, which takes `requested` back, is where the count starts over
(`Trailed`).

The history has one event for each step of ours (`WireEvent`), the most recent
first, and it is read by functions: whether we are choked (`unchoked`), and what was
requested since the last choke (`requestsSince`). A batch of requests is one event.
`Asked` is the invariant of its loop, and `Batch` what the event then says.

The requests are read off the messages that were sent, not off `pending_blocks`.
-/

namespace BitTorrent

/-- A step, as it can be seen from outside. -/
structure WireEvent where
  received : Option Message
  picked : Option (Nat × Option Bool)
  sent : List Message
  deriving DecidableEq, Repr

/-- The message the step receives. -/
def SeedAct.received : SeedAct → Option Message
  | .deliver msg => some msg
  | _ => none

/-- The piece that is picked, and whether it is owned. -/
def SeedAct.picked (b : Bitfield) : SeedAct → Option (Nat × Option Bool)
  | .pick => match b.pickPiece.2 with
    | .returned (some k) => some (k, b.has k)
    | _ => none
  | _ => none

/-- What can be seen of a step of ours. The other downloaders' steps show
nothing. -/
def wireEvent (cfg : Config) (σ : Solo) : SoloAct → Option WireEvent
  | .own a => (seedStep cfg σ.bitfield σ.seed a).map fun out =>
    { received := a.received, picked := a.picked σ.bitfield, sent := out.sent }
  | .other _ => none

/-- The block a message requests. -/
def Message.block? : Message → Option BlockDownload
  | .request index begin length => some ⟨index.toNat, begin.toNat, length.toNat⟩
  | _ => none

/-- The blocks that messages request. -/
def requestsOf (msgs : List Message) : List BlockDownload := msgs.filterMap Message.block?

/-- The last of the `Choke` and `Unchoke` messages is `Unchoke`. -/
def unchoked : List WireEvent → Bool
  | [] => false
  | e :: tr => match e.received with
    | some .choke => false
    | some .unchoke => true
    | _ => unchoked tr

/-- The blocks requested since the last `Choke`. -/
def requestsSince : List WireEvent → List BlockDownload
  | [] => []
  | e :: tr => (if e.received = some .choke then [] else requestsSince tr) ++ requestsOf e.sent

/-- The piece was picked at some time. -/
def Picked (tr : List WireEvent) (k : Nat) : Prop := ∃ e ∈ tr, ∃ o, e.picked = some (k, o)

/-- Nothing that is owned was picked. -/
def PicksMissing (tr : List WireEvent) : Prop :=
  ∀ e ∈ tr, ∀ k o, e.picked = some (k, o) → o = some false

/-- The byte at the offset `o` of the piece `k` belongs to the block. -/
def BlockDownload.Covers (x : BlockDownload) (k o : Nat) : Prop :=
  x.pieceIndex = k ∧ x.blockBegin ≤ o ∧ o < x.blockBegin + x.blockLen

/-- The two blocks have no byte in common. -/
def BlockDownload.Apart (x y : BlockDownload) : Prop := ∀ k o, x.Covers k o → ¬ y.Covers k o

/-- A request that may be sent after the events `tr`. -/
structure Proper (cfg : Config) (tr : List WireEvent) (x : BlockDownload) : Prop where
  index_lt : x.pieceIndex < cfg.torrent.numPieces
  len_pos : 0 < x.blockLen
  len_le : x.blockLen ≤ blockSize
  end_le : ∃ len, cfg.torrent.info.getPieceLength cfg.profile x.pieceIndex = some len ∧
    x.blockBegin + x.blockLen ≤ len
  unchoked : unchoked tr = true
  picked : Picked tr x.pieceIndex
  missing : ∀ e ∈ tr, ∀ o, e.picked = some (x.pieceIndex, o) → o = some false

/-- The requests of all events, the most recent first. -/
def Disciplined (cfg : Config) : List WireEvent → Prop
  | [] => True
  | e :: tr => (∀ x ∈ requestsOf e.sent, Proper cfg (e :: tr) x) ∧
    (requestsSince (e :: tr)).Pairwise BlockDownload.Apart ∧ Disciplined cfg tr

section Discipline

variable {cfg : Config} {b : Bitfield} {s s' : SeedDownloader} {a : SeedAct} {σ σ' : Solo}
variable {tr : List WireEvent}

/-! ## One request -/

theorem requestsOf_append (msgs msgs' : List Message) :
    requestsOf (msgs ++ msgs') = requestsOf msgs ++ requestsOf msgs' :=
  List.filterMap_append ..

/-- The message names the block: its numbers fit in a `u32`. -/
theorem BlockKnown.block?_message {x : BlockDownload} (h : BlockKnown cfg x) :
    x.message.block? = some x := by
  have hn := cfg.torrent.numPieces_lt
  have hlen := cfg.torrent.pieceLen_lt x.pieceIndex
  have hlt := h.lt
  have hbegin := h.begin_lt
  have hle := h.end_le
  obtain ⟨k, o, l⟩ := x
  dsimp only at hlt hbegin hle hlen
  simp only [BlockDownload.message, Message.block?, UInt32.toNat_ofNat']
  rw [Nat.mod_eq_of_lt (by omega), Nat.mod_eq_of_lt (by omega), Nat.mod_eq_of_lt (by omega)]

/-- The requests of a batch, with those before it since the last choke: each lies
below what its piece counts as requested. `K` is the pieces that are pending. -/
structure Asked (cfg : Config) (K : Nat → Prop) (base : List BlockDownload) (s : SeedDownloader)
    (w : Wire) : Prop where
  piece : ∀ k dl, s.pendingPieces[k]? = some dl → K k ∧ PieceKnown cfg k dl
  pending : ∀ k, K k → s.pendingPieces[k]? ≠ none
  known : ∀ x ∈ requestsOf w.sent, K x.pieceIndex ∧ BlockKnown cfg x
  below : ∀ x ∈ base ++ requestsOf w.sent, ∀ dl, s.pendingPieces[x.pieceIndex]? = some dl →
    x.blockBegin + x.blockLen ≤ dl.requested
  apart : (base ++ requestsOf w.sent).Pairwise BlockDownload.Apart

/-- A send that succeeds appends its message. -/
theorem send_sent {w w' : Wire} {msg : Message} (h : w.send msg = some w') :
    w'.sent = w.sent ++ [msg] := by
  unfold Wire.send at h
  split at h
  next => rw [← Option.some.inj h]
  next => cases h
  next => rw [← Option.some.inj h]

/-- One request more: it begins where the requests before it end. -/
theorem Asked.push {K : Nat → Prop} {base : List BlockDownload} {w w' : Wire} {k : Nat}
    {dl : PieceDownload} (h : Asked cfg K base s w) (hdl : s.pendingPieces[k]? = some dl)
    (hlt : dl.requested < dl.pieceLength) (hsend : w.send (dl.nextBlock k).message = some w')
    (inflight : Nat) : Asked cfg K base (s.push k dl inflight) w' := by
  obtain ⟨hk, hpiece⟩ := h.piece k dl hdl
  have hnext := hpiece.nextBlock hlt
  have hsent : requestsOf w'.sent = requestsOf w.sent ++ [dl.nextBlock k] := by
    rw [send_sent hsend, requestsOf_append]
    show _ ++ List.filterMap _ _ = _
    rw [List.filterMap_cons, hnext.block?_message]
    rfl
  refine ⟨fun j dl' hj => ?_, fun j hj => ?_, fun x hx => ?_, fun x hx dl' hdl' => ?_, ?_⟩
  · rw [SeedDownloader.push_getElem?] at hj
    split at hj
    next heq => rw [← heq, ← Option.some.inj hj]; exact ⟨hk, hpiece.advance hlt⟩
    next => exact h.piece j dl' hj
  · rw [SeedDownloader.push_getElem?]
    split
    · exact (nomatch ·)
    · exact h.pending j hj
  · rw [hsent] at hx
    rcases List.mem_append.mp hx with hx | hx
    · exact h.known x hx
    · rw [List.mem_singleton.mp hx]; exact ⟨hk, hnext⟩
  · rw [hsent, ← List.append_assoc] at hx
    rw [SeedDownloader.push_getElem?] at hdl'
    rcases List.mem_append.mp hx with hx | hx
    · split at hdl'
      next heq =>
        have hle := h.below x hx dl (heq ▸ hdl)
        rw [← Option.some.inj hdl']
        show _ ≤ dl.requested + _
        omega
      next => exact h.below x hx dl' hdl'
    · rw [List.mem_singleton.mp hx] at hdl' ⊢
      rw [if_pos (show k = (dl.nextBlock k).pieceIndex from rfl)] at hdl'
      rw [← Option.some.inj hdl']
      exact Nat.le_refl _
  · rw [hsent, ← List.append_assoc, List.pairwise_append]
    refine ⟨h.apart, List.pairwise_singleton .., fun x hx y hy => ?_⟩
    rw [List.mem_singleton.mp hy]
    -- the new request begins where the old ones end
    intro j o hp hq
    obtain ⟨hxj, -, hxo⟩ := hp
    obtain ⟨hkj, hko, -⟩ := hq
    have hle := h.below x hx dl (by rw [hxj, ← hkj]; exact hdl)
    change dl.requested ≤ o at hko
    omega

/-! ## The two loops -/

/-- What holds of the state a batch leaves, and of the one it leaves when it
panics. -/
def Outcome.Leaves {α : Type} (Q W : α → Prop) : Outcome α → Prop
  | .ok a | .sendFailed a => Q a
  | .panicked _ a => W a

/-- What every request keeps, `request_blocks` keeps, however it ends. -/
theorem requestBlocks_leaves {p : Profile} {k : Nat} {I : SeedDownloader → Wire → Prop}
    (hpush : ∀ s dl inflight w w', I s w → s.pendingPieces[k]? = some dl →
      dl.requested < dl.pieceLength → w.send (dl.nextBlock k).message = some w' →
      I (s.push k dl inflight) w') (s : SeedDownloader) :
    ∀ r : Requests, I (s.apply k r) r.wire →
      (requestBlocks p k r).Leaves (fun r' => I (s.apply k r') r'.wire)
        (fun r' => ∃ s', I s' r'.wire) := by
  have hnext : ∀ (r : Requests) (inflight : Nat) (wire : Wire), I (s.apply k r) r.wire →
      r.dl.requested < r.dl.pieceLength → r.wire.send (r.dl.nextBlock k).message = some wire →
      I (s.apply k (r.push k inflight wire)) wire := by
    intro r inflight wire h hlt hsend
    rw [SeedDownloader.apply_push]
    exact hpush _ _ _ _ _ h (SeedDownloader.apply_getElem? s k r) hlt hsend
  intro r
  fun_induction requestBlocks p k r with
  | case1 r hlt hsend => exact fun h => h
  | case2 r hlt wire hsend hmem => exact fun h => ⟨_, hnext r r.inflight wire h hlt hsend⟩
  | case3 r hlt wire hsend hmem hadd => exact fun h => ⟨_, hnext r r.inflight wire h hlt hsend⟩
  | case4 r hlt wire hsend hmem hadd => exact fun h => hnext r _ wire h hlt hsend
  | case5 r hlt wire hsend hmem inflight hadd hne ih =>
    exact fun h => ih (hnext r inflight wire h hlt hsend)
  | case6 r hge => exact fun h => h

/-- What every request keeps, the loop over the pending pieces keeps. -/
theorem requestPending_leaves {p : Profile} {I : SeedDownloader → Wire → Prop}
    (hpush : ∀ k s dl inflight w w', I s w → s.pendingPieces[k]? = some dl →
      dl.requested < dl.pieceLength → w.send (dl.nextBlock k).message = some w' →
      I (s.push k dl inflight) w') (order : List Nat) :
    ∀ (s : SeedDownloader) (w : Wire), I s w → (requestPending p order s w).Leaves
      (fun sw => I sw.1 sw.2) (fun sw => ∃ s', I s' sw.2) := by
  induction order with
  | nil => exact fun s w h => h
  | cons k order ih =>
    intro s w h
    unfold requestPending
    split
    next => exact ih s w h
    next dl hdl =>
      split
      next => exact ⟨s, h⟩
      next =>
        split
        next => exact ⟨s, h⟩
        next =>
          split
          next => exact ih s w h
          next =>
            have hr :=
              requestBlocks_leaves (p := p) (hpush k) s ⟨dl, s.inflight, s.pendingBlocks, w⟩
              (by rw [SeedDownloader.apply_self hdl]; exact h)
            cases hreq : requestBlocks p k ⟨dl, s.inflight, s.pendingBlocks, w⟩ with
            | ok r => rw [hreq] at hr; exact ih _ _ hr
            | sendFailed r => rw [hreq] at hr; exact hr
            | panicked e r => rw [hreq] at hr; exact hr

/-! ## The records that fit together -/

/-- What a live task keeps of its own requests. -/
structure Trail (cfg : Config) (b : Bitfield) (s : SeedDownloader) (tr : List WireEvent) :
    Prop where
  choked : s.chokedUs = !unchoked tr
  opened : (s.phase = .pick ∨ ∃ k dl, s.phase = .start k dl) → s.chokedUs = false
  picked : ∀ k, (s.pendingPieces[k]? ≠ none ∨ ∃ dl, s.phase = .start k dl) → Picked tr k
  below : ∀ x ∈ requestsSince tr, ∀ dl, s.pendingPieces[x.pieceIndex]? = some dl →
    x.blockBegin + x.blockLen ≤ dl.requested
  gone : ∀ x ∈ requestsSince tr, s.pendingPieces[x.pieceIndex]? = none → b.Owns x.pieceIndex
  fresh : ∀ k dl, s.phase = .start k dl → ∀ x ∈ requestsSince tr, x.pieceIndex ≠ k

/-- The requests a step sends. -/
structure Batch (cfg : Config) (s : SeedDownloader) (tr : List WireEvent) (sent : List Message) :
    Prop where
  known : ∀ x ∈ requestsOf sent, BlockKnown cfg x
  opened : requestsOf sent ≠ [] → s.chokedUs = false
  picked : ∀ x ∈ requestsOf sent,
    s.pendingPieces[x.pieceIndex]? ≠ none ∨ ∃ dl, s.phase = .start x.pieceIndex dl
  apart : (requestsSince tr ++ requestsOf sent).Pairwise BlockDownload.Apart

theorem Picked.cons {k : Nat} (h : Picked tr k) (e : WireEvent) : Picked (e :: tr) k := by
  obtain ⟨e', he', o, ho⟩ := h
  exact ⟨e', List.mem_cons_of_mem _ he', o, ho⟩

theorem unchoked_cons {e : WireEvent} (h₁ : e.received ≠ some .choke)
    (h₂ : e.received ≠ some .unchoke) : unchoked (e :: tr) = unchoked tr := by
  simp only [unchoked]

theorem unchoked_choke {e : WireEvent} (h : e.received = some .choke) :
    unchoked (e :: tr) = false := by
  simp only [unchoked, h]

theorem unchoked_unchoke {e : WireEvent} (h : e.received = some .unchoke) :
    unchoked (e :: tr) = true := by
  simp only [unchoked, h]

theorem requestsSince_quiet {e : WireEvent} (hsent : requestsOf e.sent = [])
    (hreceived : e.received ≠ some .choke) : requestsSince (e :: tr) = requestsSince tr := by
  show (if e.received = some .choke then [] else requestsSince tr) ++ requestsOf e.sent = _
  rw [if_neg hreceived, hsent, List.append_nil]

theorem Disciplined.apart (h : Disciplined cfg tr) :
    (requestsSince tr).Pairwise BlockDownload.Apart := by
  cases tr with
  | nil => exact List.Pairwise.nil
  | cons e tr => exact h.2.1

theorem Batch.quiet (h : Disciplined cfg tr) {sent : List Message} (hsent : requestsOf sent = []) :
    Batch cfg s tr sent := by
  refine ⟨fun x hx => ?_, fun hne => absurd hsent hne, fun x hx => ?_, ?_⟩
  · rw [hsent] at hx; cases hx
  · rw [hsent] at hx; cases hx
  · rw [hsent, List.append_nil]; exact h.apart

section Batch

variable {K : Nat → Prop} {s₁ : SeedDownloader} {w : Wire}

/-- What a loop has asked for makes a batch, when its pieces were pending or being
started. -/
theorem Asked.batch (h : Asked cfg K (requestsSince tr) s₁ w) (hc : s.chokedUs = false)
    (hK : ∀ k, K k → s.pendingPieces[k]? ≠ none ∨ ∃ dl, s.phase = .start k dl) :
    Batch cfg s tr w.sent :=
  ⟨fun x hx => (h.known x hx).2, fun _ => hc, fun x hx => hK _ (h.known x hx).1, h.apart⟩

/-- After a batch of requests of the pieces `K`, which includes the pending ones. -/
theorem Asked.trail (hA : Asked cfg K (requestsSince tr) s₁ w) (h : Trail cfg b s tr)
    (hc : s.chokedUs = false)
    (hK : ∀ k, K k → s.pendingPieces[k]? ≠ none ∨ ∃ dl, s.phase = .start k dl)
    (hK' : ∀ k, s.pendingPieces[k]? ≠ none → K k) (hp : s'.pendingPieces = s₁.pendingPieces)
    (hc' : s'.chokedUs = false) (hph : ∀ k dl, s'.phase ≠ .start k dl) :
    Trail cfg b s' (⟨none, none, w.sent⟩ :: tr) where
  choked := hc'.trans (hc.symm.trans h.choked)
  opened := fun _ => hc'
  picked := by
    intro k hcases
    rcases hcases with hk | ⟨dl, hdl⟩
    · rw [hp] at hk
      obtain ⟨dl, hdl⟩ := Option.ne_none_iff_exists'.mp hk
      exact (h.picked k (hK k (hA.piece k dl hdl).1)).cons _
    · exact absurd hdl (hph k dl)
  below := fun x hx dl hdl => hA.below x hx dl (hp ▸ hdl)
  gone := by
    intro x hx hnone
    rw [hp] at hnone
    rcases List.mem_append.mp hx with hx | hx
    · refine h.gone x hx ?_
      by_contra hne
      exact hA.pending _ (hK' _ hne) hnone
    · exact absurd hnone (hA.pending _ (hA.known x hx).1)
  fresh := fun k dl hs => absurd hs (hph k dl)

/-- The state a batch of requests of the pending pieces starts from. -/
theorem Trail.asked (h : Trail cfg b s tr) (hk : Known cfg s) (hd : Disciplined cfg tr)
    (sends : Option Nat) :
    Asked cfg (fun k => s.pendingPieces[k]? ≠ none) (requestsSince tr) s ⟨sends, []⟩ where
  piece := fun k dl hdl => ⟨by rw [hdl]; exact (nomatch ·), hk.piece k dl hdl⟩
  pending := fun k hk => hk
  known := fun x hx => (nomatch hx)
  below := fun x hx dl hdl => h.below x
    (by rw [← List.append_nil (requestsSince tr)]; exact hx) dl hdl
  apart := by
    show (requestsSince tr ++ []).Pairwise _
    rw [List.append_nil]
    exact hd.apart

/-- And that of the requests of a new piece. -/
theorem Trail.asked_start (h : Trail cfg b s tr) (hk : Known cfg s) (hd : Disciplined cfg tr)
    {index : Nat} {dl : PieceDownload} (hs : s.phase = .start index dl) (sends : Option Nat) :
    Asked cfg (fun k => s.pendingPieces[k]? ≠ none ∨ k = index) (requestsSince tr)
      (s.apply index ⟨dl, s.inflight, s.pendingBlocks, ⟨sends, []⟩⟩) ⟨sends, []⟩ := by
  have hph := hk.phase
  rw [hs] at hph
  have hget : ∀ j,
      (s.apply index ⟨dl, s.inflight, s.pendingBlocks, ⟨sends, []⟩⟩).pendingPieces[j]? =
      if index = j then some dl else s.pendingPieces[j]? :=
    fun j => SeedDownloader.insert_getElem? s.pendingPieces index dl j
  refine ⟨fun k dl' hdl' => ?_, fun k hk' => ?_, fun x hx => (nomatch hx),
    fun x hx dl' hdl' => ?_, ?_⟩
  · rw [hget] at hdl'
    split at hdl'
    next heq =>
      rw [← heq, ← Option.some.inj hdl']
      exact ⟨Or.inr rfl, hph.2.1⟩
    next => exact ⟨Or.inl (by rw [hdl']; exact (nomatch ·)), hk.piece k dl' hdl'⟩
  · rw [hget]
    split
    next => exact (nomatch ·)
    next hne => exact hk'.resolve_right fun heq => hne heq.symm
  · rw [show requestsSince tr ++ requestsOf [] = requestsSince tr from List.append_nil _] at hx
    rw [hget, if_neg (Ne.symm (h.fresh index dl hs x hx))] at hdl'
    exact h.below x hx dl' hdl'
  · show (requestsSince tr ++ []).Pairwise _
    rw [List.append_nil]
    exact hd.apart

end Batch

/-! ## Steps that send requests -/

/-- The requests for the pending pieces are a batch, and the trail goes on. -/
theorem trail_request (h : Trail cfg b s tr) (hk : Known cfg s) (hd : Disciplined cfg tr)
    (order : List Nat) (sends : Option Nat) :
    Batch cfg s tr (s.requestPieces cfg b order sends).sent ∧
    ((s.requestPieces cfg b order sends).seed.Alive →
      Trail cfg b (s.requestPieces cfg b order sends).seed
        (⟨none, none, (s.requestPieces cfg b order sends).sent⟩ :: tr)) := by
  unfold SeedDownloader.requestPieces
  split
  next hc =>
    refine ⟨Batch.quiet hd rfl, fun _ => ⟨h.choked, ?_, ?_, ?_, ?_, ?_⟩⟩
    · simp [SeedDownloader.goto]
    · intro k hcases
      rcases hcases with hk' | ⟨dl, hdl⟩
      · exact (h.picked k (Or.inl hk')).cons _
      · cases hdl
    · rw [requestsSince_quiet rfl (by simp)]
      exact h.below
    · rw [requestsSince_quiet rfl (by simp)]
      exact h.gone
    · exact fun k dl hdl => (nomatch hdl)
  next hc =>
    have hc := Bool.eq_false_iff.mpr hc
    have hl := requestPending_leaves (p := cfg.profile)
      (fun k _ dl inflight _ _ hI hdl hlt hsend => hI.push hdl hlt hsend inflight) order s
      ⟨sends, []⟩ (h.asked hk hd sends)
    have hframe := SeedDownloader.requestPending_frame cfg.profile order s ⟨sends, []⟩
    cases hreq : requestPending cfg.profile order s ⟨sends, []⟩ with
    | ok sw =>
      rw [hreq] at hl hframe
      refine ⟨hl.batch hc fun k hk' => Or.inl hk', fun _ => hl.trail h hc (fun k hk' => Or.inl hk')
        (fun k hk' => hk') rfl (hframe.2.trans hc) fun k dl hph => ?_⟩
      dsimp only [SeedDownloader.goto] at hph
      split at hph <;> cases hph
    | sendFailed sw =>
      rw [hreq] at hl hframe
      exact ⟨hl.batch hc fun k hk' => Or.inl hk', fun _ => hl.trail h hc (fun k hk' => Or.inl hk')
        (fun k hk' => hk') rfl (hframe.2.trans hc) fun k dl => (nomatch ·)⟩
    | panicked e sw =>
      rw [hreq] at hl
      obtain ⟨s₁, hl⟩ := hl
      exact ⟨hl.batch hc fun k hk' => Or.inl hk', fun hlive => absurd rfl (hlive e)⟩

/-- The requests for a new piece are a batch, and the trail goes on. -/
theorem trail_start (h : Trail cfg b s tr) (hk : Known cfg s) (hd : Disciplined cfg tr)
    {index : Nat} {dl : PieceDownload} (hs : s.phase = .start index dl) :
    Batch cfg s tr (s.startPiece cfg b index dl none).sent ∧
    ((s.startPiece cfg b index dl none).seed.Alive →
      Trail cfg b (s.startPiece cfg b index dl none).seed
        (⟨none, none, (s.startPiece cfg b index dl none).sent⟩ :: tr)) := by
  have hc := h.opened (Or.inr ⟨index, dl, hs⟩)
  have hK : ∀ k, (s.pendingPieces[k]? ≠ none ∨ k = index) →
      s.pendingPieces[k]? ≠ none ∨ ∃ dl, s.phase = .start k dl :=
    fun k hk' => hk'.imp_right fun heq => ⟨dl, by rw [heq]; exact hs⟩
  have hl := requestBlocks_leaves (p := cfg.profile) (k := index)
    (fun _ dl inflight _ _ hI hdl hlt hsend => hI.push hdl hlt hsend inflight) s
    ⟨dl, s.inflight, s.pendingBlocks, ⟨none, []⟩⟩ (h.asked_start hk hd hs none)
  have hnot := requestBlocks_not_failed cfg.profile index
    (r := ⟨dl, s.inflight, s.pendingBlocks, ⟨none, []⟩⟩) rfl
  unfold SeedDownloader.startPiece
  cases hreq : requestBlocks cfg.profile index ⟨dl, s.inflight, s.pendingBlocks, ⟨none, []⟩⟩ with
  | ok r =>
    rw [hreq] at hl
    refine ⟨hl.batch hc hK, fun hlive => ?_⟩
    dsimp only at hlive ⊢
    split
    next hdl => rw [if_pos hdl] at hlive; exact absurd rfl (hlive .pieceAlreadyPending)
    next =>
      exact hl.trail h hc hK (fun k hk' => Or.inl hk') rfl hc fun k dl => (nomatch ·)
  | sendFailed r => rw [hreq] at hnot; exact hnot.elim
  | panicked e r =>
    rw [hreq] at hl
    obtain ⟨s₁, hl⟩ := hl
    exact ⟨hl.batch hc hK, fun hlive => absurd rfl (hlive e)⟩

/-! ## The other steps -/

/-- The step sends requests. -/
def SeedAct.Requests : SeedAct → Prop
  | .request .. | .start _ => True
  | _ => False

/-- The other steps send no requests. -/
theorem quiet_of_step {out : SeedOut} (h : seedStep cfg b s a = some out) (ha : ¬ a.Requests) :
    requestsOf out.sent = [] := by
  cases a with
  | request | start => exact absurd trivial ha
  | check | streamEnd | streamError | sendOk | sendErr | release =>
    simp only [seedStep] at h
    split at h <;> cases h <;> rfl
  | keepAlive sent =>
    simp only [seedStep] at h
    split at h <;> cases h
    cases sent <;> rfl
  | deliver msg =>
    simp only [seedStep] at h
    split at h
    next => split at h <;> cases h; rfl
    next => cases h
  | setPiece =>
    simp only [seedStep] at h
    split at h
    next =>
      unfold SeedDownloader.setPiece at h
      split at h
      next => cases h
      next => cases h; rfl
      next =>
        split at h
        next => cases h; rfl
        next => dsimp only at h; split at h <;> (cases h; rfl)
    next => cases h
  | pick =>
    simp only [seedStep] at h
    split at h
    next =>
      unfold SeedDownloader.pickNext at h
      split at h
      next => cases h
      next => cases h; rfl
      next => cases h; rfl
      next =>
        split at h
        next => cases h; rfl
        next => split at h <;> (cases h; rfl)
    next => cases h

/-- What is picked is missing. -/
theorem picked_missing (hb : Bitfield.Inv cfg.torrent.numPieces b) {k : Nat} {o : Option Bool}
    (h : a.picked b = some (k, o)) : o = some false ∧ ¬ b.Owns k := by
  unfold SeedAct.picked at h
  split at h
  next =>
    rcases Bitfield.pickPiece_spec hb cfg.torrent.numPieces_lt with ⟨-, heq⟩ | ⟨m, hm, hun, -, heq⟩
    · rw [heq] at h
      cases h
    · rw [heq] at h
      dsimp only at h
      obtain ⟨rfl, rfl⟩ := Prod.mk.inj (Option.some.inj h)
      exact ⟨by rw [hb.has_eq hm, decide_eq_false hun], hun⟩
  next => cases h

theorem picked_of_pick {k : Nat} (h : b.pickPiece.2 = .returned (some k)) :
    SeedAct.picked b .pick = some (k, b.has k) := by
  unfold SeedAct.picked
  rw [h]

/-- A step that neither sends requests nor hears from the peer about choking. -/
theorem Trail.quiet (h : Trail cfg b s tr) {b' : Bitfield} {e : WireEvent}
    (howns : ∀ i, b.Owns i → b'.Owns i) (hsent : requestsOf e.sent = [])
    (hchoke : e.received ≠ some .choke) (hc : s'.chokedUs = !unchoked (e :: tr))
    (hopened : (s'.phase = .pick ∨ ∃ k dl, s'.phase = .start k dl) → s'.chokedUs = false)
    (hp : ∀ (k : Nat) (dl' : PieceDownload), s'.pendingPieces[k]? = some dl' →
      ∃ dl : PieceDownload, s.pendingPieces[k]? = some dl ∧ dl.requested = dl'.requested)
    (hgone : ∀ (k : Nat) (dl : PieceDownload), s.pendingPieces[k]? = some dl →
      s'.pendingPieces[k]? = none → b'.Owns k)
    (hph : ∀ k dl, s'.phase ≠ .start k dl) : Trail cfg b' s' (e :: tr) where
  choked := hc
  opened := hopened
  picked := by
    intro k hcases
    rcases hcases with hk | ⟨dl, hdl⟩
    · obtain ⟨dl', hdl'⟩ := Option.ne_none_iff_exists'.mp hk
      obtain ⟨dl, hdl, -⟩ := hp k dl' hdl'
      exact (h.picked k (Or.inl (by rw [hdl]; exact (nomatch ·)))).cons _
    · exact absurd hdl (hph k dl)
  below := by
    intro x hx dl' hdl'
    rw [requestsSince_quiet hsent hchoke] at hx
    obtain ⟨dl, hdl, hreq⟩ := hp _ dl' hdl'
    rw [← hreq]
    exact h.below x hx dl hdl
  gone := by
    intro x hx hnone
    rw [requestsSince_quiet hsent hchoke] at hx
    cases hdl : s.pendingPieces[x.pieceIndex]? with
    | none => exact howns _ (h.gone x hx hdl)
    | some dl => exact hgone _ dl hdl hnone
  fresh := fun k dl hs => absurd hs (hph k dl)

/-- The same when the pieces stay as they are. -/
theorem Trail.goto (h : Trail cfg b s tr) {b' : Bitfield} {e : WireEvent} {ph : Phase}
    (howns : ∀ i, b.Owns i → b'.Owns i) (hsent : requestsOf e.sent = [])
    (hchoke : e.received ≠ some .choke) (hc : s.chokedUs = !unchoked (e :: tr))
    (hpick : ph ≠ .pick) (hstart : ∀ k dl, ph ≠ .start k dl) :
    Trail cfg b' (s.goto ph) (e :: tr) := by
  refine h.quiet howns hsent hchoke hc ?_ (fun k dl hdl => ⟨dl, hdl, rfl⟩) ?_ hstart
  · intro hcases
    rcases hcases with hph | ⟨k, dl, hph⟩
    · exact absurd hph hpick
    · exact absurd hph (hstart k dl)
  · intro k dl hdl hnone
    change s.pendingPieces[k]? = none at hnone
    rw [hdl] at hnone
    cases hnone

/-- A message that is ignored changes nothing about choking. -/
theorem ignores_choked (h : s.chokedUs = !unchoked tr) (ha : s.Ignores a) {e : WireEvent}
    (he : e.received = a.received) :
    e.received ≠ some .choke ∧ s.chokedUs = !unchoked (e :: tr) := by
  have hother : a.received ≠ some .choke → a.received ≠ some .unchoke →
      e.received ≠ some .choke ∧ s.chokedUs = !unchoked (e :: tr) := by
    intro h₁ h₂
    rw [← he] at h₁ h₂
    exact ⟨h₁, h.trans (congrArg _ (unchoked_cons h₁ h₂).symm)⟩
  cases a with
  | keepAlive | streamError => exact hother (nomatch ·) (nomatch ·)
  | deliver msg =>
    cases msg with
    | unchoke =>
      refine ⟨by rw [he]; exact (nomatch ·), ?_⟩
      rw [show s.chokedUs = false from ha, unchoked_unchoke he]
      rfl
    | choke => exact ha.elim
    | keepAlive | interested | notInterested | «have» | bitfield | request | piece | cancel =>
      exact hother (by simp [SeedAct.received]) (by simp [SeedAct.received])
  | check | streamEnd | setPiece | sendOk | sendErr | release | request | pick | start =>
    exact ha.elim

/-- The trail goes on over a step that only moves the task on. -/
theorem trail_move (hb : Bitfield.Inv cfg.torrent.numPieces b) (h : Trail cfg b s tr) {ph : Phase}
    (hm : Moves cfg b s a ph) (ha : ¬ a.Requests) {sent : List Message}
    (hsent : requestsOf sent = []) {b' : Bitfield} (howns : ∀ i, b.Owns i → b'.Owns i) :
    Trail cfg b' (s.goto ph) (⟨a.received, a.picked b, sent⟩ :: tr) := by
  cases hm with
  | finish | listen | streamEnd | sendOk | sendErr | release | pickNone | pickPending =>
    exact h.goto howns hsent (by simp [SeedAct.received]) h.choked (by simp) (by simp)
  | leave hs hact =>
    rcases hact with rfl | rfl <;>
      exact h.goto howns hsent (by simp [SeedAct.received]) h.choked (by simp) (by simp)
  | ignore hs hact =>
    obtain ⟨hchoke, hc⟩ := ignores_choked h.choked hact (e := ⟨a.received, a.picked b, sent⟩) rfl
    exact h.goto howns hsent hchoke hc (by simp) (by simp)
  | choked => exact absurd trivial ha
  | @pickNew index dl hs hpick hdl hnew =>
    have hnone : s.pendingPieces[index]? = none := by
      by_contra hne
      exact hdl (Std.ExtTreeMap.mem_iff_isSome_getElem?.mpr (Option.isSome_iff_ne_none.mpr hne))
    have hun := (picked_missing hb (picked_of_pick hpick)).2
    have hsince : requestsSince (⟨none, SeedAct.picked b .pick, sent⟩ :: tr) = requestsSince tr :=
      requestsSince_quiet hsent (by simp)
    refine ⟨h.choked, fun _ => h.opened (Or.inl hs), ?_, fun x hx => ?_, fun x hx hdl' => ?_, ?_⟩
    · intro k hcases
      rcases hcases with hk | ⟨dl', hdl'⟩
      · exact (h.picked k (Or.inl hk)).cons _
      · obtain ⟨rfl, -⟩ := Phase.start.inj hdl'
        exact ⟨_, List.mem_cons_self .., _, picked_of_pick hpick⟩
    · exact h.below x (hsince ▸ hx)
    · exact howns _ (h.gone x (hsince ▸ hx) hdl')
    · -- what was requested of it and is no longer pending would be owned
      intro k dl' hdl' x hx heq
      subst heq
      obtain ⟨rfl, -⟩ := Phase.start.inj hdl'
      exact hun (h.gone x (hsince ▸ hx) hnone)

/-- A piece that leaves the pending ones was set. -/
theorem Trail.erase (h : Trail cfg b s tr) {b' : Bitfield} {e : WireEvent} {index : Nat}
    {ph : Phase} (howns : ∀ i, b.Owns i → b'.Owns i) (hset : b'.Owns index)
    (hsent : requestsOf e.sent = []) (hchoke : e.received ≠ some .choke)
    (hc : s.chokedUs = !unchoked (e :: tr)) (hpick : ph ≠ .pick)
    (hstart : ∀ k dl, ph ≠ .start k dl) :
    Trail cfg b' { s with pendingPieces := s.pendingPieces.erase index, phase := ph }
      (e :: tr) := by
  refine h.quiet howns hsent hchoke hc ?_ (fun k dl hdl => ?_) (fun k dl hdl hnone => ?_) hstart
  · intro hcases
    rcases hcases with hph | ⟨k, dl, hph⟩
    · exact absurd hph hpick
    · exact absurd hph (hstart k dl)
  · dsimp only at hdl
    rw [SeedDownloader.erase_getElem?] at hdl
    split at hdl
    next => cases hdl
    next => exact ⟨dl, hdl, rfl⟩
  · dsimp only at hnone
    rw [SeedDownloader.erase_getElem?] at hnone
    split at hnone
    next heq => exact heq ▸ hset
    next => rw [hdl] at hnone; cases hnone

/-- The trail goes on over every other step. -/
theorem trail_effect (hb : Bitfield.Inv cfg.torrent.numPieces b) (hk : Known cfg s)
    (h : Trail cfg b s tr) (he : Effect cfg b s a s') (hlive : s'.Alive) (ha : ¬ a.Requests)
    {sent : List Message} (hsent : requestsOf sent = []) :
    Trail cfg (b.after (s.bitOp a)) s' (⟨a.received, a.picked b, sent⟩ :: tr) := by
  have hn := cfg.torrent.numPieces_lt
  have howns : ∀ i, b.Owns i → (b.after (s.bitOp a)).Owns i :=
    fun i hi => Bitfield.owns_after hb hn (fun o ho => hk.bitOp_inRange ho) hi
  have hset : ∀ index dl, s.phase = .complete index → s.pendingPieces[index]? = some dl →
      (b.after (s.bitOp .setPiece)).Owns index := by
    intro index dl hs hdl
    unfold SeedDownloader.bitOp
    rw [hs]
    have hop : (BitOp.set index).InRange cfg.torrent.numPieces := (hk.piece index dl hdl).lt
    exact (Bitfield.owns_call hb hn hop index).mpr (Or.inr rfl)
  cases he with
  | move hm => exact trail_move hb h hm ha hsent howns
  | @choke pieces hs hreset =>
    -- a choke forgets every request
    have hnone : ∀ x, x ∉ requestsSince (⟨some .choke, none, sent⟩ :: tr) := by
      intro x hx
      change x ∈ requestsOf sent at hx
      rw [hsent] at hx
      cases hx
    refine ⟨by rw [unchoked_choke rfl]; rfl, by simp, ?_, fun x hx => ?_, fun x hx => ?_,
      by simp⟩
    · intro k hcases
      rcases hcases with hk' | ⟨dl, hdl⟩
      · obtain ⟨dl', hdl'⟩ := Option.ne_none_iff_exists'.mp hk'
        obtain ⟨dl, num, hdl, -⟩ := resetPieces_eq_some hreset hdl'
        exact (h.picked k (Or.inl (by rw [hdl]; simp))).cons _
      · cases hdl
    · exact absurd hx (hnone x)
    · exact absurd hx (hnone x)
  | unchoke hs hc =>
    refine h.quiet howns hsent (by simp [SeedAct.received]) (by rw [unchoked_unchoke rfl]; rfl)
      (by simp)
      (fun k dl hdl => ⟨dl, hdl, rfl⟩) (fun k dl hdl hnone => ?_) (by simp)
    exact absurd (hdl.symm.trans hnone) (by simp)
  | orphan hs hmem hdl =>
    refine h.quiet howns hsent (by simp [SeedAct.received]) (h.choked.trans (congrArg _
      (unchoked_cons (by simp [SeedAct.received]) (by simp [SeedAct.received])).symm)) (by simp)
      (fun k dl hdl => ⟨dl, hdl, rfl⟩) (fun k dl hdl hnone => ?_) (by simp)
    exact absurd (hdl.symm.trans hnone) (by simp)
  | @block index begin block dl r inflight bytes hs hframed hmem hdl hrem hinf hsplice =>
    -- after a block the phase is one of two
    have hph : ∀ ph : Phase, ph ≠ .complete index.toNat → ph ≠ .request →
        (if r = 0 then Phase.complete index.toNat else .request) ≠ ph := by
      intro ph h₁ h₂
      split
      · exact h₁.symm
      · exact h₂.symm
    refine h.quiet howns hsent (by simp [SeedAct.received]) (h.choked.trans (congrArg _
      (unchoked_cons (by simp [SeedAct.received]) (by simp [SeedAct.received])).symm)) ?_
      (fun k dl' hdl' => ?_)
      (fun k dl' hdl' hnone => ?_) fun k dl => hph _ (by simp) (by simp)
    · intro hcases
      rcases hcases with hs' | ⟨k, dl', hs'⟩
      · exact absurd hs' (hph _ (by simp) (by simp))
      · exact absurd hs' (hph _ (by simp) (by simp))
    · dsimp only at hdl'
      rw [SeedDownloader.insert_getElem?] at hdl'
      split at hdl'
      next heq => exact ⟨dl, heq ▸ hdl, by rw [← Option.some.inj hdl']⟩
      next => exact ⟨dl', hdl', rfl⟩
    · dsimp only at hnone
      rw [SeedDownloader.insert_getElem?] at hnone
      split at hnone
      next => cases hnone
      next => exact absurd (hdl'.symm.trans hnone) (by simp)
  | @valid index dl hs hset' hdl hvalid =>
    exact h.erase howns (hset index dl hs hdl) hsent (by simp [SeedAct.received])
      h.choked (by simp) (by simp)
  | @invalid index dl hs hset' hdl hvalid =>
    exact h.erase howns (hset index dl hs hdl) hsent (by simp [SeedAct.received])
      h.choked (by simp) (by simp)
  | request | requestFailed | start | startFailed => exact absurd trivial ha
  | panic hcause hs' => exact absurd hs' (hlive _)

/-- The batch a step sends, and the records after it. -/
theorem trail_step {out : SeedOut} (hb : Bitfield.Inv cfg.torrent.numPieces b) (hk : Known cfg s)
    (h : Trail cfg b s tr) (hd : Disciplined cfg tr) (hok : a.SendsSucceed)
    (hout : seedStep cfg b s a = some out) :
    Batch cfg s tr out.sent ∧ (requestsOf out.sent ≠ [] → a.received = none) ∧
    (out.seed.Alive → Trail cfg out.bitfield out.seed
      (⟨a.received, a.picked b, out.sent⟩ :: tr)) := by
  obtain ⟨he, hbit⟩ := effect_of_step hout
  by_cases ha : a.Requests
  · cases a with
    | request order sends =>
      simp only [seedStep] at hout
      split at hout
      next =>
        split at hout
        next =>
          obtain rfl := Option.some.inj hout
          obtain ⟨hbatch, htrail⟩ := trail_request h hk hd order sends
          exact ⟨hbatch, fun _ => rfl, fun hlive => hbit ▸ htrail hlive⟩
        next => cases hout
      next => cases hout
    | start sends =>
      simp only [seedStep] at hout
      split at hout
      next hs =>
        obtain rfl := Option.some.inj hout
        obtain rfl : sends = none := hok
        obtain ⟨hbatch, htrail⟩ := trail_start h hk hd hs
        exact ⟨hbatch, fun _ => rfl, fun hlive => hbit ▸ htrail hlive⟩
      next => cases hout
    | check | keepAlive | streamEnd | streamError | deliver | setPiece | sendOk | sendErr
    | release | pick => exact ha.elim
  · have hsent := quiet_of_step hout ha
    refine ⟨Batch.quiet hd hsent, fun hne => absurd hsent hne, fun hlive => ?_⟩
    rw [hbit]
    exact trail_effect hb hk h he hlive ha hsent

/-! ## Runs -/

/-- What is kept along a run. -/
structure Trailed (cfg : Config) (σ : Solo) (tr : List WireEvent) : Prop
    extends Solo.Inv cfg σ where
  trail : σ.seed.Alive → Trail cfg σ.bitfield σ.seed tr
  picks : PicksMissing tr
  disciplined : Disciplined cfg tr

theorem trailed_new (cfg : Config) : Trailed cfg (Solo.new cfg) [] where
  toInv := soloInv_new cfg
  trail := fun _ => ⟨rfl, by simp [Solo.new, SeedDownloader.new],
    by simp [Solo.new, SeedDownloader.new], fun x hx => (nomatch hx), fun x hx => (nomatch hx),
    by simp [Solo.new, SeedDownloader.new]⟩
  picks := fun e he => (nomatch he)
  disciplined := trivial

/-- The picker yields a piece that is not owned, so one event more picks nothing
owned. -/
theorem PicksMissing.cons (hb : Bitfield.Inv cfg.torrent.numPieces b) (h : PicksMissing tr)
    (a : SeedAct) (sent : List Message) :
    PicksMissing (⟨a.received, a.picked b, sent⟩ :: tr) := by
  intro e he k o ho
  rcases List.mem_cons.mp he with rfl | he
  · exact (picked_missing hb ho).1
  · exact h e he k o ho

/-- The requests of a step are proper ones. -/
theorem Batch.proper {sent : List Message} (hbatch : Batch cfg s tr sent) (h : Trail cfg b s tr)
    (hb : Bitfield.Inv cfg.torrent.numPieces b) (hp : PicksMissing tr)
    (hreceived : requestsOf sent ≠ [] → a.received = none) {x : BlockDownload}
    (hx : x ∈ requestsOf sent) : Proper cfg (⟨a.received, a.picked b, sent⟩ :: tr) x := by
  have hne : requestsOf sent ≠ [] := List.ne_nil_of_mem hx
  have hknown := hbatch.known x hx
  refine ⟨hknown.lt, hknown.len_pos, hknown.len_le,
    ⟨_, cfg.torrent.getPieceLength_eq hknown.lt, hknown.end_le⟩, ?_,
    (h.picked _ (hbatch.picked x hx)).cons _, fun e he o ho => hp.cons hb a sent e he _ o ho⟩
  have hopen := h.choked.symm.trans (hbatch.opened hne)
  rw [hreceived hne, unchoked_cons (by simp) (by simp)]
  simpa using hopen

/-- One step of a run keeps it all, if its sends succeed. -/
theorem trailed_step {a : SoloAct} (h : Trailed cfg σ tr) (hok : a.SendsSucceed)
    (hstep : soloStep cfg σ a = some σ') : Trailed cfg σ' ((wireEvent cfg σ a).toList ++ tr) := by
  cases a with
  | other op =>
    obtain ⟨hop, hs, hb⟩ := soloStep_other hstep
    refine ⟨soloInv_step h.toInv hstep, fun hlive => ?_, h.picks, h.disciplined⟩
    rw [hs] at hlive ⊢
    have htrail := h.trail hlive
    exact ⟨htrail.choked, htrail.opened, htrail.picked, htrail.below,
      fun x hx hnone => owns_of_soloStep h.toInv hstep (htrail.gone x hx hnone), htrail.fresh⟩
  | own a =>
    obtain ⟨out, hout, rfl⟩ := Option.map_eq_some_iff.mp hstep
    obtain ⟨he, -⟩ := effect_of_step hout
    have htrail := h.trail he.alive
    obtain ⟨hbatch, hreceived, hafter⟩ := trail_step h.bitfield (h.known he) htrail h.disciplined
      hok hout
    rw [show (wireEvent cfg σ (.own a)).toList = [⟨a.received, a.picked σ.bitfield, out.sent⟩] by
      simp only [wireEvent, hout]; rfl]
    refine ⟨soloInv_step h.toInv hstep, hafter, h.picks.cons h.bitfield a out.sent,
      fun x hx => hbatch.proper htrail h.bitfield h.picks hreceived hx, ?_, h.disciplined⟩
    show ((if a.received = some .choke then [] else requestsSince tr) ++ _).Pairwise _
    split
    · exact (List.pairwise_append.mp hbatch.apart).2.1
    · exact hbatch.apart

/-- **Request discipline.** In every run in which no send fails, whatever the peer
and the other tasks do, the requests on the wire are disciplined. -/
theorem requests_disciplined (cfg : Config) (acts : List SoloAct)
    (hsends : ∀ a ∈ acts, a.SendsSucceed) :
    AllStates (traced (soloStep cfg) (wireEvent cfg)) (fun p => Disciplined cfg p.2)
      (Solo.new cfg, []) acts := by
  have hok : AllSteps (traced (soloStep cfg) (wireEvent cfg)) (fun _ a => a.SendsSucceed)
      (Solo.new cfg, []) acts := allSteps_of_forall hsends
  refine (allStates_of_invariant (P := fun p => Trailed cfg p.1 p.2) (fun p a p' h ok hs => ?_)
    (trailed_new cfg) hok).mono fun p h => h.disciplined
  obtain ⟨hstep, htr⟩ := traced_eq_some hs
  rw [htr]
  exact trailed_step h ok hstep

theorem requests_disciplined_two :
    AllStates (traced (soloStep (twoPieces .dev)) (wireEvent (twoPieces .dev)))
      (fun p => Disciplined (twoPieces .dev) p.2) (Solo.new (twoPieces .dev), [])
      [.own .check, .own (.deliver .unchoke), .own (.request [] none), .own .pick,
        .own (.start none), .own .check, .other (.set 1), .own (.deliver .choke), .own .check,
        .own (.deliver .unchoke), .own (.request [0] none)] :=
  requests_disciplined (twoPieces .dev) _ (by decide)

end Discipline

end BitTorrent
