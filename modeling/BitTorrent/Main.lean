import BitTorrent.Bencode.Decoder
import BitTorrent.Bencode.RoundTrip
import BitTorrent.Download.Buffer
import BitTorrent.File.Split
import BitTorrent.Tracker.PickTracker

/-!
# The commands (`main.rs`)

`downloadCommand` is `main` with the arguments of `Commands::Download`: the torrent
is parsed, a tracker is picked, the download runs, and what it returns is written.
All that is outside is in the `World`: what the trackers answer, what the tasks do
and in which order, the disk. The torrent file is a bencoded dictionary, and the
disk has no links (`Disk`).

When the command ends with `Ok`, and the files of the torrent lead to different
places, then

* `download_verified` — what is on the disk has the length of the torrent, and each
  piece of it is verified or all zeros;
* `download_delivers` — it is the file of the torrent, if the peers send its bytes
  and no step loses a piece.

`decodeCommand` is `main` with the arguments of `Commands::Decode`, and what it shows
is told by the grammar of bencode (`decodeCommand_shows`).
-/

namespace BitTorrent

open Bencode (MetaInfo Tree infoHash parseMetaInfo)
open Udp (SocketAddr)

/-- What `main` meets outside. `schedule` are the steps of `File::download` and its
tasks. -/
structure World where
  profile : Profile
  sha1 : List UInt8 → Digest
  trackers : Trackers
  drawn : Vector (Fin 62) 20
  schedule : List Action
  cwd : Dir
  disk : Disk
  allows : Fs

/-- How `main` ends. `running` is a download that the schedule leaves before its
end. -/
inductive Ending
  | ok
  | error
  | panicked
  | running
  deriving DecidableEq, Repr

/-- How it ended, and the calls of the file system that it made. -/
structure Ran where
  ending : Ending
  ops : List FsOp
  deriving DecidableEq, Repr

/-- The torrent of a download, if it can start: `File::new` can allocate the bytes,
and `num_pieces` does not divide by zero. -/
def startable (p : Profile) (info : Info) : Option (Torrent p) :=
  match h : info.downloadType.len p with
  | none => none
  | some length =>
    if h' : length < 2 ^ 63 ∧ 0 < info.pieceLength ∧ info.pieceLength < 2 ^ 32 then
      some ⟨info, length, h, h'.1, h'.2.1, h'.2.2⟩
    else none

/-- How `main` ends when `write` ends so. -/
def WriteResult.ending : WriteResult → Ending
  | .ok => .ok
  | .ioError => .error
  | .panicked => .panicked

namespace World

/-- `main` up to `file.download()`. The torrent file is `none` when it cannot be
read, or is no bencode. -/
def start (w : World) (torrentFile : Option Tree) : Except Ending (MetaInfo × Setup) :=
  match torrentFile.bind parseMetaInfo with
  | none => .error .error
  | some m =>
    -- printed before a tracker is picked
    match m.info.totalLength w.profile with
    | none => .error .panicked
    | some totalLength =>
      match (pickTracker w.trackers (infoHash w.sha1 m.info) (genPeerId w.drawn)
          (.ofNat totalLength) m.announceList []).result with
      | .error => .error .error
      | .panicked => .error .panicked
      | .ok peers =>
        match startable w.profile m.info with
        | none => .error .panicked
        | some torrent => .ok (m,
          { cfg := { profile := w.profile, torrent, sha1 := w.sha1 }
            id := asBytes (genPeerId w.drawn)
            peers := peers.length
            limit := maxSeeds })

/-- `main` from `file.download()` on. -/
def finish (w : World) (output : String) (m : MetaInfo) (su : Setup) : Ran :=
  match run (sysStep su) (Sys.new su) w.schedule with
  | none => ⟨.running, []⟩
  | some σ =>
    match σ.main with
    | .returned bytes =>
      let written := write w.profile (fsOn w.cwd w.disk w.allows) output m.info.downloadType bytes
      ⟨written.result.ending, written.ops⟩
    | .failed => ⟨.error, []⟩
    | .panicked => ⟨.panicked, []⟩
    | _ => ⟨.running, []⟩

/-- `main` with the arguments of `Commands::Download`. -/
def downloadCommand (w : World) (output : String) (torrentFile : Option Tree) : Ran :=
  match w.start torrentFile with
  | .error ending => ⟨ending, []⟩
  | .ok (m, su) => w.finish output m su

end World

/-- Where the files of the torrent are written, in its order. -/
def places (cwd : Dir) (output : String) : DownloadType → List Dir
  | .singleFile _ => [resolve cwd (PathBuf.components output.toList)]
  | .multiFile files => files.map (place cwd output.toList)

/-- The files one after the other. -/
def Disk.concat (disk : Disk) (places : List Dir) : List UInt8 :=
  (places.map disk.read).flatten

/-- Each piece is verified, or was never written. -/
structure Sound (cfg : Config) (bytes : List UInt8) : Prop where
  length : bytes.length = cfg.torrent.length
  piece : ∀ i, i < cfg.torrent.numPieces →
    cfg.torrent.info.pieces[i]? = some (cfg.sha1 (cfg.piece bytes i)) ∨
      cfg.piece bytes i = List.replicate (cfg.torrent.pieceLen i) 0

/-! ## The total length -/

section Length

variable {p : Profile} {fs : Fs} {path output : PathBuf} {bytes : List UInt8} {ops : List FsOp}

/-- A sum is never more than the exact one. -/
theorem Profile.add_le {w x y z : Nat} (h : p.add w x y = some z) : z ≤ x + y := by
  unfold Profile.add at h
  split at h
  next => exact Nat.le_of_eq (Option.some.inj h).symm
  next =>
    cases p with
    | dev => cases h
    | release =>
      rw [← Option.some.inj h]
      exact Nat.mod_le _ _

/-- What wraps around gets smaller. -/
theorem foldlM_le :
    ∀ {files : List File} {acc length : Nat},
      files.foldlM (fun len f => p.add 64 len f.length) acc = some length →
      length ≤ acc + filesLength files := by
  intro files
  induction files with
  | nil =>
    intro acc length h
    exact Nat.le_of_eq (Option.some.inj h).symm
  | cons f files ih =>
    intro acc length h
    rw [List.foldlM_cons] at h
    obtain ⟨sum, hsum, h⟩ := Option.bind_eq_some_iff.mp h
    have hle := p.add_le hsum
    have := ih h
    rw [filesLength]
    omega

theorem attempt_ok {op : FsOp} {next : List FsOp → Written}
    (h : (attempt fs ops op next).result = .ok) : (next (ops ++ [op])).result = .ok := by
  unfold attempt at h
  split at h
  next => exact h
  next => cases h

theorem createParent_ok {next : List FsOp → Written}
    (h : (createParent fs ops path next).result = .ok) : ∃ ops', (next ops').result = .ok := by
  unfold createParent at h
  split at h
  next => exact ⟨_, attempt_ok h⟩
  next => exact ⟨_, h⟩

/-- The slice was in range, by what followed. -/
theorem writePart_ok {idx length : Nat} {next : Nat → List FsOp → Written}
    (hsum : idx + length < 2 ^ 64)
    (h : (writePart p fs ops path bytes idx length next).result = .ok) :
    idx + length ≤ bytes.length ∧ ∃ ops', (next (idx + length) ops').result = .ok := by
  unfold writePart at h
  rw [p.add_of_lt hsum] at h
  dsimp only at h
  split at h
  next hle => exact ⟨hle.2, _, attempt_ok h⟩
  next => cases h

/-- When `write` is done, there were bytes for every file. -/
theorem writeFiles_fits (hvec : bytes.length < 2 ^ 63) :
    ∀ {files : List File} {idx : Nat} {ops : List FsOp}, (∀ f ∈ files, f.length < 2 ^ 63) →
      idx ≤ bytes.length → (writeFiles p fs output bytes files idx ops).result = .ok →
      idx + filesLength files ≤ bytes.length := by
  intro files
  induction files with
  | nil => intro idx ops _ hidx _; exact hidx
  | cons f files ih =>
    intro idx ops hlengths hidx h
    have hf := hlengths f (List.mem_cons_self ..)
    unfold writeFiles at h
    obtain ⟨ops', h⟩ := createParent_ok h
    obtain ⟨hle, ops', h⟩ := writePart_ok (by omega) h
    have := ih (fun f hf => hlengths f (List.mem_cons_of_mem _ hf)) hle h
    rw [filesLength]
    omega

end Length

/-! ## What is written -/

section Write

variable {p : Profile} {cwd : Dir} {disk : Disk} {allows : Fs} {output : String}
  {bytes : List UInt8} {d : DownloadType}

/-- When `write` returns `Ok`, the disk has the bytes. -/
theorem write_concat (hlen : d.len p = some bytes.length) (hvec : bytes.length < 2 ^ 63)
    (hlengths : ∀ n ∈ d.lengths, n < 2 ^ 63)
    (hok : (write p (fsOn cwd disk allows) output d bytes).result = .ok) :
    ∃ disk', run (applyOp cwd) disk (write p (fsOn cwd disk allows) output d bytes).ops =
        some disk' ∧
      ((places cwd output d).Nodup → disk'.concat (places cwd output d) = bytes) := by
  cases d with
  | singleFile length =>
    have hends : Ends cwd disk
        (fun disk' => disk'.node (resolve cwd (PathBuf.components output.toList)) =
          some (.file bytes))
        (write p (fsOn cwd disk allows) output (.singleFile length) bytes) := by
      refine attempt_ends (show run (applyOp cwd) disk [] = some disk from rfl) ?_
      intro disk' hwrite hran
      refine .inr ⟨rfl, disk', hran, ?_⟩
      exact (Disk.write_node hwrite _).trans (if_pos rfl)
    rcases hends with herror | ⟨-, disk', hran, hnode⟩
    · rw [herror] at hok
      cases hok
    · refine ⟨disk', hran, fun _ => ?_⟩
      show (disk'.read _ ++ []) = bytes
      rw [List.append_nil, Disk.read_of_node hnode]
  | multiFile files =>
    -- the lengths did not wrap around, since there are bytes for every file
    have hfits := writeFiles_fits hvec
      (fun f hf => hlengths f.length (List.mem_map_of_mem hf)) (Nat.zero_le _) hok
    have hle := foldlM_le hlen
    have hbytes : bytes.length = filesLength files := by omega
    rcases @writeFiles_ends cwd disk allows p output.toList bytes hvec files 0 [] disk rfl
      (by omega) with herror | ⟨-, disk', hran, -, hparts⟩
    · rw [show (write p (fsOn cwd disk allows) output (.multiFile files) bytes).result = _
        from herror] at hok
      cases hok
    · refine ⟨disk', hran, fun hnodup => ?_⟩
      have hflat := (hparts hnodup).flatten
      rw [List.drop_zero, ← hbytes, List.take_length] at hflat
      unfold Disk.concat places
      rw [List.map_map]
      exact hflat

end Write

/-! ## The tracker -/

/-- Peers are those of a tracker that is the first of its tier, and has five seeders. -/
theorem serves_of_pickTracker {trackers : Trackers} {infoHash : Digest}
    {drawn : Vector (Fin 62) 20} {totalLength : UInt64} {peers : List SocketAddr} :
    ∀ {tiers : List (List String)} {tried : List String},
      (pickTracker trackers infoHash (genPeerId drawn) totalLength tiers tried).result = .ok peers →
      ∃ tier ∈ tiers, ∃ url before, tier.head? = some url ∧
        trackers.Serves (pickAnnounce infoHash drawn totalLength) before url peers := by
  intro tiers
  induction tiers with
  | nil => intro tried h; cases h
  | cons tier tiers ih =>
    intro tried h
    -- the trackers behind this one
    have hrest : ∀ {tried'}, (pickTracker trackers infoHash (genPeerId drawn) totalLength tiers
        tried').result = .ok peers → ∃ tier' ∈ tier :: tiers, ∃ url before,
          tier'.head? = some url ∧
          trackers.Serves (pickAnnounce infoHash drawn totalLength) before url peers := by
      intro tried' h
      obtain ⟨tier', hmem, hserves⟩ := ih h
      exact ⟨tier', List.mem_cons_of_mem _ hmem, hserves⟩
    unfold pickTracker at h
    simp only [tryInto_genPeerId] at h
    split at h
    next => cases h
    next url hurl =>
      split at h
      next => cases h
      next => exact hrest h
      next hconnect =>
        split at h
        next => cases h
        next => exact hrest h
        next peers' seeders hannounce =>
          split at h
          next hmany =>
            obtain rfl := PickResult.ok.inj h
            exact ⟨tier, List.mem_cons_self .., url, tried, hurl, hconnect, seeders,
              hannounce, hmany⟩
          next => exact hrest h

/-! ## The command -/

section Command

variable {w : World} {output : String} {torrentFile : Option Tree} {m : MetaInfo} {su : Setup}
  {p : Profile} {info : Info}

/-- The torrent of a download is the one that was parsed. -/
theorem startable_eq_some {torrent : Torrent p} (h : startable p info = some torrent) :
    torrent.info = info := by
  unfold startable at h
  split at h
  next => cases h
  next =>
    split at h
    next => rw [← Option.some.inj h]
    next => cases h

/-- A download that starts has the peers of a good tracker. -/
structure Started (w : World) (m : MetaInfo) (su : Setup) : Prop where
  profile : su.cfg.profile = w.profile
  sha1 : su.cfg.sha1 = w.sha1
  info : su.cfg.torrent.info = m.info
  fits : m.info.Fits
  served : ∃ tier ∈ m.announceList, ∃ url before peers, tier.head? = some url ∧
    su.peers = peers.length ∧
    w.trackers.Serves (pickAnnounce (infoHash w.sha1 m.info) w.drawn
      (.ofNat su.cfg.torrent.length)) before url peers

/-- What a download that could start rests on. -/
theorem started (h : w.start torrentFile = .ok (m, su)) : Started w m su := by
  unfold World.start at h
  split at h
  next => cases h
  next m' hparse =>
    split at h
    next => cases h
    next totalLength htotal =>
      split at h
      next => cases h
      next => cases h
      next peers hpick =>
        split at h
        next => cases h
        next torrent htorrent =>
          obtain ⟨rfl, rfl⟩ := Prod.mk.inj (Except.ok.inj h)
          have hinfo := startable_eq_some htorrent
          obtain ⟨t, -, hparse⟩ := Option.bind_eq_some_iff.mp hparse
          refine ⟨rfl, rfl, hinfo, (Bencode.parse_fits hparse).2, ?_⟩
          obtain ⟨tier, hmem, url, before, hurl, hserves⟩ := serves_of_pickTracker hpick
          have hlength : torrent.length = totalLength := by
            have hlen := torrent.len_eq
            rw [hinfo] at hlen
            exact Option.some.inj (hlen.symm.trans htotal)
          refine ⟨tier, hmem, url, before, peers, hurl, rfl, ?_⟩
          dsimp only
          rw [hlength]
          exact hserves

theorem ending_eq_ok : ∀ {result : WriteResult}, result.ending = .ok → result = .ok
  | .ok, _ => rfl
  | .ioError, h | .panicked, h => by cases h

/-- A command that ends with `Ok` has written what the download returned. -/
theorem finish_ok (h : (w.finish output m su).ending = .ok) :
    ∃ σ bytes, run (sysStep su) (Sys.new su) w.schedule = some σ ∧ σ.main = .returned bytes ∧
      (write w.profile (fsOn w.cwd w.disk w.allows) output m.info.downloadType bytes).result =
        .ok ∧
      (w.finish output m su).ops =
        (write w.profile (fsOn w.cwd w.disk w.allows) output m.info.downloadType bytes).ops := by
  unfold World.finish at h ⊢
  split at h
  next => cases h
  next σ hrun =>
    split at h
    next bytes hmain =>
      exact ⟨σ, bytes, hrun, hmain, ending_eq_ok h, rfl⟩
    next => cases h
    next => cases h
    next => cases h

/-- In every run the buffer is held, for the messages that the loop has received. -/
theorem held_of_run {acts : List Action} {σ : Sys}
    (hrun : run (sysStep su) (Sys.new su) acts = some σ) : ∃ seen, σ.Held su seen := by
  obtain ⟨hist, htraced⟩ : ∃ hist, run (traced (sysStep su) (Sys.event su)) (Sys.new su, []) acts =
      some (σ, hist) := traced_of_run [] hrun
  exact ⟨_, held_run htraced⟩

/-- Then the disk has it. -/
theorem finish_disk (hstarted : Started w m su) (h : (w.finish output m su).ending = .ok) :
    ∃ σ bytes disk', run (sysStep su) (Sys.new su) w.schedule = some σ ∧
      σ.main = .returned bytes ∧
      run (applyOp w.cwd) w.disk (w.finish output m su).ops = some disk' ∧
      ((places w.cwd output m.info.downloadType).Nodup →
        disk'.concat (places w.cwd output m.info.downloadType) = bytes) := by
  obtain ⟨σ, bytes, hrun, hmain, hwrite, hops⟩ := finish_ok h
  obtain ⟨seen, hheld⟩ := held_of_run hrun
  have hlength : bytes.length = su.cfg.torrent.length := by
    rw [(hheld.returned bytes hmain).1]
    exact hheld.length
  have hlen : m.info.downloadType.len w.profile = some bytes.length := by
    rw [hlength, ← hstarted.profile, ← hstarted.info]
    exact su.cfg.torrent.len_eq
  obtain ⟨disk', hdisk, hconcat⟩ := write_concat hlen
    (by rw [hlength]; exact su.cfg.torrent.length_lt) hstarted.fits hwrite
  exact ⟨σ, bytes, disk', hrun, hmain, by rw [hops]; exact hdisk, hconcat⟩

theorem command_eq (hstart : w.start torrentFile = .ok (m, su)) :
    w.downloadCommand output torrentFile = w.finish output m su := by
  unfold World.downloadCommand
  rw [hstart]

/-- **What is written was verified.** Whatever the trackers and the peers send, and on
every disk without links: when the command ends with `Ok` and the files lead to
different places, they have the length of the torrent together, and each piece of it
is verified or all zeros. -/
theorem download_verified (w : World) (output : String) (torrentFile : Option Tree) (m : MetaInfo)
    (su : Setup) (hstart : w.start torrentFile = .ok (m, su))
    (hok : (w.downloadCommand output torrentFile).ending = .ok) :
    Started w m su ∧ ∃ disk',
      run (applyOp w.cwd) w.disk (w.downloadCommand output torrentFile).ops = some disk' ∧
      ((places w.cwd output m.info.downloadType).Nodup →
        Sound su.cfg (disk'.concat (places w.cwd output m.info.downloadType))) := by
  have hstarted := started hstart
  rw [command_eq hstart] at hok ⊢
  obtain ⟨σ, bytes, disk', hrun, hmain, hdisk, hconcat⟩ := finish_disk hstarted hok
  obtain ⟨seen, hheld⟩ := held_of_run hrun
  refine ⟨hstarted, disk', hdisk, fun hnodup => ?_⟩
  rw [hconcat hnodup, (hheld.returned bytes hmain).1]
  refine ⟨hheld.length, fun i hi => ?_⟩
  by_cases hbrings : Brings i seen
  · exact .inl ((hheld.piece i hi).verified hbrings)
  · exact .inr ((hheld.piece i hi).untouched hbrings)

/-- **What is written is the file.** If the blocks of the peers are the bytes of the
torrent, and no step of the download loses a piece, then the files are all there when
the command ends with `Ok`, on every disk without links. -/
theorem download_delivers (w : World) (output : String) (torrentFile : Option Tree) (m : MetaInfo)
    (su : Setup) (file : List UInt8) (hstart : w.start torrentFile = .ok (m, su))
    (hfile : Genuine su.cfg file) (hdel : ∀ a ∈ w.schedule, a.Delivers su.cfg file)
    (hsmall : SmallPieces su.cfg)
    (hunlost : AllSteps (sysStep su) (Unlost su) (Sys.new su) w.schedule)
    (hplaces : (places w.cwd output m.info.downloadType).Nodup)
    (hok : (w.downloadCommand output torrentFile).ending = .ok) :
    ∃ disk', run (applyOp w.cwd) w.disk (w.downloadCommand output torrentFile).ops = some disk' ∧
      Whole su.cfg file (disk'.concat (places w.cwd output m.info.downloadType)) := by
  rw [command_eq hstart] at hok ⊢
  obtain ⟨σ, bytes, disk', hrun, hmain, hdisk, hconcat⟩ := finish_disk (started hstart) hok
  have hkept : σ.Kept su file := run_invariant_of
    (fun _ _ _ h hok hs => Sys.kept_step h hfile hsmall hok.1 hok.2 hs) (Sys.kept_new su file)
    (hunlost.and (allSteps_of_forall hdel)) hrun
  refine ⟨disk', hdisk, ?_⟩
  rw [hconcat hplaces]
  exact hkept.returned bytes hmain

end Command

/-! ## A small download -/

/-- Two pieces, in two files. -/
def pairInfo : Info where
  name := "two"
  pieceLength := 1
  pieces := [sha1Byte [1], sha1Byte [2]]
  downloadType := .multiFile [⟨1, ["a"]⟩, ⟨1, ["d", "b"]⟩]

/-- The torrent of the example. -/
def pairMeta : MetaInfo where
  announce := "udp://a:80"
  announceList := [["udp://a:80"]]
  info := pairInfo

/-- A tracker with one peer, which sends the pieces in order. -/
def pairWorld : World where
  profile := .dev
  sha1 := sha1Byte
  trackers :=
    { connect := fun _ _ => .ok ()
      announce := fun _ _ _ => .ok ([{ ip := 1, port := 6881 }], 9) }
  drawn := Vector.replicate 20 0
  schedule := inStep
  cwd := []
  disk := .empty
  allows := allSucceed

/-- The download of the example. -/
def pairSetup : Setup where
  cfg :=
    { profile := .dev
      torrent := (startable .dev pairInfo).get rfl
      sha1 := sha1Byte }
  id := asBytes (genPeerId (Vector.replicate 20 0))
  peers := 1
  limit := maxSeeds

theorem start_pair :
    pairWorld.start (some (Bencode.torrentTree pairMeta)) = .ok (pairMeta, pairSetup) := by
  have hparse : (some (Bencode.torrentTree pairMeta)).bind parseMetaInfo = some pairMeta := by
    decide +kernel
  have htotal : pairMeta.info.totalLength pairWorld.profile = some 2 := rfl
  have hpick : (pickTracker pairWorld.trackers (infoHash pairWorld.sha1 pairMeta.info)
      (genPeerId pairWorld.drawn) (.ofNat 2) pairMeta.announceList []).result =
      .ok [{ ip := 1, port := 6881 }] := by
    decide +kernel
  unfold World.start
  simp only [hparse, htotal, hpick]
  rfl

theorem ok_pair :
    (pairWorld.downloadCommand "/out" (some (Bencode.torrentTree pairMeta))).ending = .ok := by
  decide +kernel

theorem places_pair : (places pairWorld.cwd "/out" pairMeta.info.downloadType).Nodup := by
  decide +kernel

theorem download_verified_pair : Started pairWorld pairMeta pairSetup ∧ ∃ disk',
    run (applyOp []) .empty
      (pairWorld.downloadCommand "/out" (some (Bencode.torrentTree pairMeta))).ops = some disk' ∧
    Sound pairSetup.cfg (disk'.concat (places [] "/out" pairInfo.downloadType)) := by
  obtain ⟨hstarted, disk', hdisk, hsound⟩ :=
    download_verified pairWorld "/out" _ pairMeta pairSetup start_pair ok_pair
  exact ⟨hstarted, disk', hdisk, hsound places_pair⟩

theorem download_delivers_pair : ∃ disk',
    run (applyOp []) .empty
      (pairWorld.downloadCommand "/out" (some (Bencode.torrentTree pairMeta))).ops = some disk' ∧
    Whole pairSetup.cfg [1, 2] (disk'.concat (places [] "/out" pairInfo.downloadType)) :=
  download_delivers pairWorld "/out" _ pairMeta pairSetup [1, 2] start_pair ⟨rfl, by decide⟩
    (by decide +kernel) (by decide +kernel) (by decide +kernel) places_pair ok_pair

/-! ## The command `decode` -/

open Bencode (Decoded Decoder Derives Trips Value plain_matches plain_panics_iff)

/-- What the user gets: the value, an error, or a panic. -/
inductive Shown
  | printed (v : Value)
  | error
  | panicked

/-- `main` with the arguments of `Commands::Decode`. -/
def decodeCommand (p : Profile) (decoder : Decoder) (value : String) : Shown :=
  match decoder.decode (asBytes value) with
  | .ok (remaining, v) =>
    -- `debug_assert!`
    if p = .dev ∧ remaining ≠ [] then .panicked else .printed v
  | .err _ => .error
  | .panicked _ | .unfinished => .panicked

section Decode

variable {decoder : Decoder} {input rest : List UInt8} {v : Value}

/-- The decoders read the same values, where the plain one does not trip. -/
theorem decode_eq_ok : decoder.decode input = .ok (rest, v) ↔
    (∃ text, input = text ++ rest ∧ Derives text v) ∧ (decoder = .plain → ¬ Trips input) := by
  rw [← Bencode.Nom.decode_eq_ok]
  cases decoder with
  | nom =>
    unfold Decoder.decode
    cases hnom : Bencode.Nom.decode input with
    | ok res => simp
    | error e => simp
  | plain =>
    have hmatches := plain_matches input
    have htrips := @plain_panics_iff input
    unfold Decoder.decode
    cases hplain : Bencode.Plain.decode input with
    | ok res =>
      rw [hplain] at hmatches htrips
      have hnom : Bencode.Nom.decode input = .ok res := hmatches
      rw [hnom, ← htrips]
      simp
    | err e =>
      rw [hplain] at hmatches
      obtain ⟨e', hnom⟩ : Nom.Fails Bencode.Nom.decode input := hmatches
      rw [hnom]
      simp
    | panicked e =>
      rw [hplain] at htrips
      have : Trips input := htrips.mp ⟨e, rfl⟩
      simp [this]
    | unfinished =>
      rw [hplain] at hmatches
      exact hmatches.elim

/-- Both decoders come to an end. -/
theorem decode_ne_unfinished : decoder.decode input ≠ .unfinished := by
  intro h
  cases decoder with
  | nom =>
    unfold Decoder.decode at h
    cases hnom : Bencode.Nom.decode input with
    | ok res => rw [hnom] at h; cases h
    | error e => rw [hnom] at h; cases h
  | plain =>
    have hmatches := plain_matches input
    rw [show Bencode.Plain.decode input = _ from h] at hmatches
    exact hmatches

/-- A decoder panics when it is `plain` and its input trips. -/
theorem decode_panics_iff :
    (∃ e, decoder.decode input = .panicked e) ↔ decoder = .plain ∧ Trips input := by
  cases decoder with
  | nom =>
    unfold Decoder.decode
    cases hnom : Bencode.Nom.decode input with
    | ok res => simp
    | error e => simp
  | plain => exact plain_panics_iff.trans (by simp)

/-- What is printed was decoded, and in a debug build nothing was left. -/
theorem printed_iff {p : Profile} {value : String} : decodeCommand p decoder value = .printed v ↔
    ∃ rest, decoder.decode (asBytes value) = .ok (rest, v) ∧ (p = .dev → rest = []) := by
  unfold decodeCommand
  cases hdecode : decoder.decode (asBytes value) with
  | ok res =>
    obtain ⟨remaining, v'⟩ := res
    dsimp only
    constructor
    · intro h
      split at h
      next => cases h
      next hall =>
        cases h
        refine ⟨remaining, rfl, fun hdev => ?_⟩
        by_contra hne
        exact hall ⟨hdev, hne⟩
    · intro h
      obtain ⟨rest, heq, hall⟩ := h
      cases heq
      exact if_neg fun hleft => hleft.2 (hall hleft.1)
  | err e => exact iff_of_false nofun nofun
  | panicked e => exact iff_of_false nofun nofun
  | unfinished => exact iff_of_false nofun nofun

/-- The command panics with the decoder, or in a debug build on the assertion that
nothing is left. -/
theorem shown_panicked_iff {p : Profile} {value : String} :
    decodeCommand p decoder value = .panicked ↔
      (∃ e, decoder.decode (asBytes value) = .panicked e) ∨
      p = .dev ∧ ∃ rest v, decoder.decode (asBytes value) = .ok (rest, v) ∧ rest ≠ [] := by
  unfold decodeCommand
  cases hdecode : decoder.decode (asBytes value) with
  | ok res =>
    obtain ⟨remaining, v'⟩ := res
    dsimp only
    constructor
    · intro h
      split at h
      next hleft => exact .inr ⟨hleft.1, remaining, v', rfl, hleft.2⟩
      next => cases h
    · intro h
      rcases h with ⟨e, he⟩ | ⟨hdev, rest, v, heq, hne⟩
      · cases he
      · cases heq
        exact if_pos ⟨hdev, hne⟩
  | err e =>
    refine iff_of_false nofun ?_
    intro h
    rcases h with ⟨e', he⟩ | ⟨-, rest, v, heq, -⟩
    · cases he
    · cases heq
  | panicked e => exact iff_of_true rfl (.inl ⟨e, rfl⟩)
  | unfinished => exact absurd hdecode decode_ne_unfinished

/-- **What `decode` shows**, by the grammar. A value is printed when the argument
begins with its text and the plain decoder does not trip. There is a panic when it
trips, and in a debug build when something is left. -/
theorem decodeCommand_shows (p : Profile) (decoder : Decoder) (value : String) :
    (∀ v, decodeCommand p decoder value = .printed v ↔
      ∃ text rest, asBytes value = text ++ rest ∧ Derives text v ∧ (p = .dev → rest = []) ∧
        (decoder = .plain → ¬ Trips (asBytes value))) ∧
    (decodeCommand p decoder value = .panicked ↔
      decoder = .plain ∧ Trips (asBytes value) ∨
      p = .dev ∧ (decoder = .plain → ¬ Trips (asBytes value)) ∧
        ∃ text rest v, asBytes value = text ++ rest ∧ Derives text v ∧ rest ≠ []) := by
  constructor
  · intro v
    rw [printed_iff]
    constructor
    · intro h
      obtain ⟨rest, hdecode, hall⟩ := h
      obtain ⟨⟨text, heq, htext⟩, htrips⟩ := decode_eq_ok.mp hdecode
      exact ⟨text, rest, heq, htext, hall, htrips⟩
    · intro h
      obtain ⟨text, rest, heq, htext, hall, htrips⟩ := h
      exact ⟨rest, decode_eq_ok.mpr ⟨⟨text, heq, htext⟩, htrips⟩, hall⟩
  · rw [shown_panicked_iff, decode_panics_iff]
    refine or_congr_right (and_congr_right fun _ => ?_)
    constructor
    · intro h
      obtain ⟨rest, v, hdecode, hne⟩ := h
      obtain ⟨⟨text, heq, htext⟩, htrips⟩ := decode_eq_ok.mp hdecode
      exact ⟨htrips, text, rest, v, heq, htext, hne⟩
    · intro h
      obtain ⟨htrips, text, rest, v, heq, htext, hne⟩ := h
      exact ⟨rest, v, decode_eq_ok.mpr ⟨⟨text, heq, htext⟩, htrips⟩, hne⟩

/-- The text of a value, and bytes behind it. -/
example : decodeCommand .dev .nom "i7e" = .printed (.int 7) ∧
    decodeCommand .dev .nom "i7ee" = .panicked ∧
    decodeCommand .release .nom "i7ee" = .printed (.int 7) ∧
    decodeCommand .dev .plain "le" = .panicked :=
  ⟨rfl, rfl, rfl, rfl⟩

end Decode

end BitTorrent
