import BitTorrent.Bencode.Partition
import BitTorrent.Download.Wiring

/-!
# The assembly of the file

The receive loop of `File::download` splices each piece into the buffer when it
arrives. When the pieces tile the file, every splice replaces a range by as many
bytes, so nothing moves (`Merged.step`): the buffer keeps its length, and what
was written stays. Whatever the order of the arrivals, and however often a piece
comes, the buffer ends up as the pieces in a row (`merge_any_order`).

The messages meant here are those a downloader sends: `message_carries`.

`Merged` follows the loop over the messages seen so far. A message for a piece
writes its range (`holds_splice`), and two pieces do not overlap
(`Info.Tiled.disjoint`), so the ranges of the others hold what they held
(`Holds.splice`). At the end there is a message for each index, and a buffer that
holds all of its pieces is their concatenation (`Tiles.flatMap_eq`).

`splice` would also make the buffer longer or shorter, when a payload is not as long
as the range it replaces. That it never does is the invariant.
-/

namespace BitTorrent

/-- A piece of the torrent with its own bytes. -/
def DownloaderMsg.Carries (n : Nat) (len : Nat → Nat) (content : Nat → List UInt8) :
    DownloaderMsg → Prop
  | .piece index length bytes =>
    index < n ∧ length = len index ∧ bytes.length = length ∧ bytes = content index
  | .disconnect _ => True

/-- The receive loop with one message after another. -/
def Sys.handleAll (su : Setup) (σ : Sys) (msgs : List DownloaderMsg) : Sys :=
  msgs.foldl (fun σ m => σ.handle su m) σ

/-- The buffer holds the pieces of the messages `seen`. -/
structure Merged (su : Setup) (len : Nat → Nat) (content : Nat → List UInt8)
    (seen : List DownloaderMsg) (σ : Sys) : Prop where
  length : σ.bytes.length = su.cfg.torrent.length
  running : σ.main ≠ .panicked
  holds : ∀ i, .piece i (len i) (content i) ∈ seen →
    Holds σ.bytes (i * su.cfg.torrent.info.pieceLength) (content i)

section Merge

variable {su : Setup} {σ : Sys} {length n : Nat} {len : Nat → Nat} {content : Nat → List UInt8}
variable {seen msgs : List DownloaderMsg} {m : DownloaderMsg}

/-- What a downloader sends in a run is a piece of the torrent, in full. -/
theorem message_carries (hi : σ.Inv su)
    (htiled : su.cfg.torrent.info.Tiled su.cfg.profile length n len) {k i l : Nat}
    {s : SeedDownloader} {bytes : List UInt8} (hk : σ.seeds[k]? = some s) (hlive : s.Alive)
    (hm : s.message k = some (.piece i l bytes)) :
    DownloaderMsg.Carries n len (fun _ => bytes) (.piece i l bytes) := by
  have hcount : n = su.cfg.torrent.numPieces :=
    Option.some.inj (htiled.count.symm.trans su.cfg.torrent.numPieces_eq)
  have hph := (hi.known k s hk hlive).phase
  unfold SeedDownloader.message at hm
  split at hm
  next hs =>
    cases hm
    rw [hs] at hph
    obtain ⟨hlt, hl, hlen, -⟩ := hph
    have hpiece := htiled.piece i (hcount ▸ hlt)
    rw [su.cfg.torrent.getPieceLength_eq hlt] at hpiece
    exact ⟨hcount ▸ hlt, hl.trans (Option.some.inj hpiece), hlen, rfl⟩
  next => cases hm
  next => cases hm

theorem Info.Tiled.length_eq (h : su.cfg.torrent.info.Tiled su.cfg.profile length n len) :
    length = su.cfg.torrent.length :=
  Option.some.inj (h.total.symm.trans su.cfg.torrent.len_eq)

/-- Two pieces do not overlap, and each ends inside the file. -/
theorem Info.Tiled.disjoint {p : Profile} {info : Info} (h : info.Tiled p length n len) {i j : Nat}
    (hij : i < j) (hj : j < n) : i * info.pieceLength + len i ≤ j * info.pieceLength := by
  have hord := List.pairwise_iff_getElem.mp h.tiles.ordered i j (by simp; omega)
    (by simpa using hj) hij
  simpa using hord

theorem Info.Tiled.end_le {p : Profile} {info : Info} (h : info.Tiled p length n len) {i : Nat}
    (hi : i < n) : i * info.pieceLength + len i ≤ length :=
  (h.tiles.mem (List.mem_map.mpr ⟨i, List.mem_range.mpr hi, rfl⟩)).2

theorem merged_new (su : Setup) (len : Nat → Nat) (content : Nat → List UInt8) :
    Merged su len content [] (Sys.new su) where
  length := List.length_replicate
  running := fun h => by cases h
  holds := fun i hi => absurd hi List.not_mem_nil

/-- One message: its piece is written, and the others stay. -/
theorem Merged.step (h : Merged su len content seen σ)
    (htiled : su.cfg.torrent.info.Tiled su.cfg.profile length n len)
    (hseen : ∀ m ∈ seen, m.Carries n len content) (hm : m.Carries n len content) :
    Merged su len content (seen ++ [m]) (σ.handle su m) := by
  cases m with
  | disconnect addr =>
    refine ⟨h.length, (nomatch ·), fun i hi => h.holds i ?_⟩
    simpa using hi
  | piece index l bytes =>
    obtain ⟨hlt, rfl, hlen, rfl⟩ := hm
    have hend := htiled.end_le hlt
    rw [htiled.length_eq, ← h.length] at hend
    have hsplice : splice σ.bytes (index * su.cfg.torrent.info.pieceLength) _ (content index) = _ :=
      splice_of_le (Nat.le_add_right _ (len index)) hend
    have heq : σ.handle su (.piece index (len index) (content index)) = { σ with
        bytes := σ.bytes.take (index * su.cfg.torrent.info.pieceLength) ++ content index ++
          σ.bytes.drop (index * su.cfg.torrent.info.pieceLength + len index)
        main := .received } := by
      unfold Sys.handle
      dsimp only
      rw [hsplice]
    have hnew : (content index).length = index * su.cfg.torrent.info.pieceLength + len index -
        index * su.cfg.torrent.info.pieceLength := by omega
    rw [heq]
    refine ⟨(splice_length hsplice hnew).trans h.length, (nomatch ·), fun i hi => ?_⟩
    by_cases hii : i = index
    · subst hii
      exact holds_splice hsplice hnew
    · -- a piece beside the one that is written
      have hold : .piece i (len i) (content i) ∈ seen := by
        rcases List.mem_append.mp hi with hi | hi
        · exact hi
        · exact absurd (DownloaderMsg.piece.inj (List.mem_singleton.mp hi)).1 hii
      obtain ⟨hin, -, hilen, -⟩ := hseen _ hold
      refine (h.holds i hold).splice hsplice hnew ?_
      rcases Nat.lt_or_gt_of_ne hii with hbefore | hbehind
      · left
        rw [hilen]
        exact htiled.disjoint hbefore hlt
      · right
        exact htiled.disjoint hbehind hin

/-- Any number of messages are merged, one after the other. -/
theorem Merged.run (htiled : su.cfg.torrent.info.Tiled su.cfg.profile length n len) :
    ∀ {msgs seen : List DownloaderMsg} {σ : Sys}, Merged su len content seen σ →
      (∀ m ∈ seen, m.Carries n len content) → (∀ m ∈ msgs, m.Carries n len content) →
      Merged su len content (seen ++ msgs) (σ.handleAll su msgs) := by
  intro msgs
  induction msgs with
  | nil =>
    intro seen σ h _ _
    rw [List.append_nil]
    exact h
  | cons m msgs ih =>
    intro seen σ h hseen hmsgs
    have hm := hmsgs m (List.mem_cons_self ..)
    have hnext := ih (h.step htiled hseen hm)
      (fun m' hm' => (List.mem_append.mp hm').elim (hseen m')
        fun hlast => List.mem_singleton.mp hlast ▸ hm)
      fun m' hm' => hmsgs m' (List.mem_cons_of_mem m hm')
    rwa [List.append_assoc, List.singleton_append] at hnext

/-- When every piece was written, the buffer is the pieces in a row. -/
theorem Merged.bytes_eq (h : Merged su len content seen σ)
    (htiled : su.cfg.torrent.info.Tiled su.cfg.profile length n len)
    (hseen : ∀ m ∈ seen, m.Carries n len content)
    (hall : ∀ i, i < n → .piece i (len i) (content i) ∈ seen) :
    σ.bytes = (List.range n).flatMap content := by
  have htiles := htiled.tiles
  rw [htiled.length_eq, ← h.length] at htiles
  have hlen : ∀ i ∈ List.range n, (i * su.cfg.torrent.info.pieceLength, len i) =
      (i * su.cfg.torrent.info.pieceLength, (content i).length) := fun i hi =>
    congrArg (_, ·) (hseen _ (hall i (List.mem_range.mp hi))).2.2.1.symm
  rw [List.map_congr_left hlen] at htiles
  have hflat := htiles.flatMap_eq fun i hi => h.holds i (hall i (List.mem_range.mp hi))
  rwa [List.drop_zero] at hflat

/-- **The assembly does not depend on the order of the arrivals**, nor on how
often a piece arrives. -/
theorem merge_any_order (su : Setup) (length n : Nat) (len : Nat → Nat)
    (content : Nat → List UInt8) (msgs : List DownloaderMsg)
    (htiled : su.cfg.torrent.info.Tiled su.cfg.profile length n len)
    (hmsgs : ∀ m ∈ msgs, m.Carries n len content)
    (hall : ∀ i, i < n → .piece i (len i) (content i) ∈ msgs) :
    ((Sys.new su).handleAll su msgs).bytes = (List.range n).flatMap content ∧
    ∀ pre, pre <+: msgs → ((Sys.new su).handleAll su pre).main ≠ .panicked ∧
      ((Sys.new su).handleAll su pre).bytes.length = length := by
  have hrun : ∀ pre, pre <+: msgs → Merged su len content pre ((Sys.new su).handleAll su pre) := by
    intro pre hpre
    have hempty : ∀ m ∈ ([] : List DownloaderMsg), m.Carries n len content :=
      fun m hm => absurd hm List.not_mem_nil
    exact (merged_new su len content).run htiled hempty fun m hm => hmsgs m (hpre.mem hm)
  refine ⟨(hrun msgs (List.prefix_refl msgs)).bytes_eq htiled hmsgs hall, fun pre hpre => ?_⟩
  have hpart := hrun pre hpre
  exact ⟨hpart.running, hpart.length.trans htiled.length_eq.symm⟩

/-- The second piece of two comes first, and once more at the end. -/
theorem merge_any_order_two :
    ((Sys.new (lone .dev)).handleAll (lone .dev)
      [.piece 1 1 [8], .piece 0 1 [7], .piece 1 1 [8]]).bytes = [7, 8] :=
  (merge_any_order (lone .dev) 2 2 (fun _ => 1) (fun i => if i = 0 then [7] else [8])
    [.piece 1 1 [8], .piece 0 1 [7], .piece 1 1 [8]]
    ⟨by decide, by decide, by decide, ⟨rfl, rfl, rfl⟩⟩
    (by simp [DownloaderMsg.Carries])
    (fun i hi => by
      have hi : i = 0 ∨ i = 1 := by omega
      rcases hi with h | h <;> simp [h])).1

end Merge

end BitTorrent
