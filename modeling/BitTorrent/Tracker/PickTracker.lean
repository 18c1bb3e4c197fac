import BitTorrent.Tracker.Udp

/-!
# Which tracker is asked (`main.rs`)

`pickTracker` goes through the tiers of the announce list and asks the first URL
of each, until one reports five seeders. What the trackers do is a parameter: how
`UdpTracker::connect` and `announce` end, after the URLs tried before.

It never looks at the other URLs of a tier, nor at `announce`, and a tier without
URLs is a panic. So whatever the trackers do, all of them are tried before it
gives up exactly when every URL that the torrent names is the first of a tier, and
no tier is empty (`pickTracker_iff`).

Mirroring notes:

* `Trackers` stands for two calls of `Tracker.Session`, each with its network and its
  time. Nothing is assumed of them but, where it is said, that they return;
* the peer id is drawn, 20 letters and digits. It is converted to an array for every
  tracker, which succeeds (`tryInto_genPeerId`);
* the announce sends nothing downloaded and nothing uploaded, and the length of the
  torrent as what is left. What is printed is left out.
-/

namespace BitTorrent

open Udp (Announce Failure SocketAddr TrackerError)

/-- How `connect` and `announce` end. `Failure.panicked` is a panic in one of them. -/
structure Trackers where
  connect : List String → String → Except Failure Unit
  announce : List String → String → Announce → Except Failure (List SocketAddr × UInt32)

/-- How `pick_tracker` ends. -/
inductive PickResult
  | ok (peers : List SocketAddr)
  | error
  | panicked
  deriving DecidableEq, Repr

/-- The URLs that were tried, and how it ended. -/
structure Pick where
  tried : List String
  result : PickResult
  deriving DecidableEq, Repr

/-! ## The peer id -/

/-- A letter or digit, by the number that `Alphanumeric` draws. -/
def alphanumeric (i : Fin 62) : UInt8 :=
  .ofNat (if i.val < 26 then 65 + i.val else if i.val < 52 then 71 + i.val else i.val - 4)

/-- `gen_peer_id`, from what is drawn. -/
def genPeerId (drawn : Vector (Fin 62) 20) : String :=
  String.ofList ((drawn.toList.map alphanumeric).map Char.ofUInt8)

theorem alphanumeric_lt : ∀ i, (alphanumeric i).toNat < 128 := by decide

/-- The peer id has the 20 bytes that are asked of it. -/
theorem tryInto_genPeerId (drawn : Vector (Fin 62) 20) :
    tryInto 20 (asBytes (genPeerId drawn)) = some (drawn.map alphanumeric) := by
  have hascii : ∀ b ∈ drawn.toList.map alphanumeric, b.toNat < 128 := by
    intro b hb
    obtain ⟨i, -, rfl⟩ := List.mem_map.mp hb
    exact alphanumeric_lt i
  rw [genPeerId, asBytes_ascii hascii, ← Vector.toList_map]
  exact tryInto_toList _

/-! ## The loop -/

/-- `pick_tracker`, from a tier on. `tried` are the URLs tried so far. -/
def pickTracker (trackers : Trackers) (infoHash : Digest) (selfId : String)
    (totalLength : UInt64) : List (List String) → List String → Pick
  | [], tried => ⟨tried, .error⟩
  | tier :: tiers, tried =>
    -- `url.get(0).unwrap()`, where `url` is the tier
    match tier.head? with
    | none => ⟨tried, .panicked⟩
    | some url =>
      match trackers.connect tried url with
      | .error .panicked => ⟨tried ++ [url], .panicked⟩
      | .error (.error _) =>
        pickTracker trackers infoHash selfId totalLength tiers (tried ++ [url])
      | .ok () =>
        match tryInto 20 (asBytes selfId) with
        | none => ⟨tried ++ [url], .error⟩
        | some peerId =>
          match trackers.announce tried url
              { infoHash, peerId, downloaded := 0, left := totalLength, uploaded := 0 } with
          | .error .panicked => ⟨tried ++ [url], .panicked⟩
          | .error (.error _) =>
            pickTracker trackers infoHash selfId totalLength tiers (tried ++ [url])
          | .ok (peers, seeders) =>
            if 5 ≤ seeders then ⟨tried ++ [url], .ok peers⟩
            else pickTracker trackers infoHash selfId totalLength tiers (tried ++ [url])

/-! ## What is wanted of it -/

/-- No reply makes the code of the trackers panic. -/
structure Trackers.Returns (trackers : Trackers) : Prop where
  connect : ∀ tried url, trackers.connect tried url ≠ .error .panicked
  announce : ∀ tried url args, trackers.announce tried url args ≠ .error .panicked

/-- The tracker fails, or reports fewer than five seeders. -/
def Trackers.Fails (trackers : Trackers) (args : Announce) (tried : List String) (url : String) :
    Prop :=
  (∃ e, trackers.connect tried url = .error (.error e)) ∨
    trackers.connect tried url = .ok () ∧
      ((∃ e, trackers.announce tried url args = .error (.error e)) ∨
        ∃ peers seeders, trackers.announce tried url args = .ok (peers, seeders) ∧ seeders < 5)

/-- The tracker has these peers, and at least five seeders. -/
def Trackers.Serves (trackers : Trackers) (args : Announce) (tried : List String) (url : String)
    (peers : List SocketAddr) : Prop :=
  trackers.connect tried url = .ok () ∧
    ∃ seeders, trackers.announce tried url args = .ok (peers, seeders) ∧ 5 ≤ seeders

/-- There is no panic, an error says that all of `urls` were tried and failed, and
the peers are those of a tracker with five seeders. -/
structure Exhausts (trackers : Trackers) (args : Announce) (urls : List String) (pick : Pick) :
    Prop where
  returns : pick.result ≠ .panicked
  error : pick.result = .error → ∀ url ∈ urls, ∃ before after,
    pick.tried = before ++ url :: after ∧ trackers.Fails args before url
  ok : ∀ peers, pick.result = .ok peers → ∃ before url after,
    pick.tried = before ++ url :: after ∧ trackers.Serves args before url peers

/-- What the trackers are told. -/
def pickAnnounce (infoHash : Digest) (drawn : Vector (Fin 62) 20) (totalLength : UInt64) :
    Announce where
  infoHash
  peerId := drawn.map alphanumeric
  downloaded := 0
  left := totalLength
  uploaded := 0

section Loop

variable {trackers : Trackers} {infoHash : Digest} {drawn : Vector (Fin 62) 20}
  {totalLength : UInt64} {tried urls : List String} {url : String} {tiers : List (List String)}

/-- A tracker that returns fails or serves. -/
theorem fails_or_serves (hreturns : trackers.Returns) (args : Announce) (tried : List String)
    (url : String) :
    trackers.Fails args tried url ∨ ∃ peers, trackers.Serves args tried url peers := by
  cases hconnect : trackers.connect tried url with
  | error e =>
    cases e with
    | panicked => exact absurd hconnect (hreturns.connect tried url)
    | error e => exact .inl (.inl ⟨e, hconnect⟩)
  | ok u =>
    cases hannounce : trackers.announce tried url args with
    | error e =>
      cases e with
      | panicked => exact absurd hannounce (hreturns.announce tried url args)
      | error e => exact .inl (.inr ⟨hconnect, .inl ⟨e, hannounce⟩⟩)
    | ok res =>
      obtain ⟨peers, seeders⟩ := res
      by_cases hfew : seeders < 5
      · exact .inl (.inr ⟨hconnect, .inr ⟨peers, seeders, hannounce, hfew⟩⟩)
      · exact .inr ⟨peers, hconnect, seeders, hannounce, UInt32.not_lt.mp hfew⟩

/-- A tier whose first tracker fails is passed over. -/
theorem pickTracker_of_fails
    (h : trackers.Fails (pickAnnounce infoHash drawn totalLength) tried url) :
    pickTracker trackers infoHash (genPeerId drawn) totalLength ((url :: urls) :: tiers) tried =
      pickTracker trackers infoHash (genPeerId drawn) totalLength tiers (tried ++ [url]) := by
  conv_lhs => unfold pickTracker
  simp only [List.head?_cons, tryInto_genPeerId]
  rcases h with ⟨e, hconnect⟩ | ⟨hconnect, ⟨e, hannounce⟩ | ⟨peers, seeders, hannounce, hfew⟩⟩
  · rw [hconnect]
  · unfold pickAnnounce at hannounce
    rw [hconnect, hannounce]
  · unfold pickAnnounce at hannounce
    rw [hconnect, hannounce]
    exact if_neg (UInt32.not_le.mpr hfew)

/-- A tier whose first tracker serves ends the search. -/
theorem pickTracker_of_serves {peers : List SocketAddr}
    (h : trackers.Serves (pickAnnounce infoHash drawn totalLength) tried url peers) :
    pickTracker trackers infoHash (genPeerId drawn) totalLength ((url :: urls) :: tiers) tried =
      ⟨tried ++ [url], .ok peers⟩ := by
  obtain ⟨hconnect, seeders, hannounce, hmany⟩ := h
  unfold pickAnnounce at hannounce
  unfold pickTracker
  simp only [List.head?_cons, tryInto_genPeerId]
  rw [hconnect, hannounce]
  exact if_pos hmany

/-- Only the first URLs of the tiers are tried. -/
theorem tried_of_pickTracker (hreturns : trackers.Returns) :
    ∀ (tiers : List (List String)) (tried : List String), ∃ more,
      (pickTracker trackers infoHash (genPeerId drawn) totalLength tiers tried).tried =
          tried ++ more ∧
        ∀ url ∈ more, ∃ tier ∈ tiers, tier.head? = some url := by
  intro tiers
  induction tiers with
  | nil => intro tried; exact ⟨[], (List.append_nil tried).symm, nofun⟩
  | cons tier tiers ih =>
    intro tried
    cases tier with
    | nil => exact ⟨[], (List.append_nil tried).symm, nofun⟩
    | cons url urls =>
      rcases fails_or_serves hreturns (pickAnnounce infoHash drawn totalLength) tried url with
        hfails | ⟨peers, hserves⟩
      · obtain ⟨more, hmore, hfirst⟩ := ih (tried ++ [url])
        rw [pickTracker_of_fails hfails]
        refine ⟨url :: more, by rw [hmore, List.append_assoc]; rfl, ?_⟩
        intro url' hmem
        rcases List.mem_cons.mp hmem with rfl | hmem
        · exact ⟨_, List.mem_cons_self .., rfl⟩
        · obtain ⟨tier, htier, hhead⟩ := hfirst url' hmem
          exact ⟨tier, List.mem_cons_of_mem _ htier, hhead⟩
      · rw [pickTracker_of_serves hserves]
        refine ⟨[url], rfl, ?_⟩
        intro url' hmem
        obtain rfl := List.mem_singleton.mp hmem
        exact ⟨_, List.mem_cons_self .., rfl⟩

/-- Without an empty tier, the first URL of every tier is tried, or one before it
has the peers. -/
theorem exhausts_firsts (hreturns : trackers.Returns) :
    ∀ {tiers : List (List String)} {tried : List String}, (∀ tier ∈ tiers, tier ≠ []) →
      Exhausts trackers (pickAnnounce infoHash drawn totalLength) (tiers.filterMap List.head?)
        (pickTracker trackers infoHash (genPeerId drawn) totalLength tiers tried) := by
  intro tiers
  induction tiers with
  | nil => intro tried _; exact ⟨nofun, nofun, nofun⟩
  | cons tier tiers ih =>
    intro tried hne
    cases tier with
    | nil => exact absurd rfl (hne [] (List.mem_cons_self ..))
    | cons url urls =>
      rcases fails_or_serves hreturns (pickAnnounce infoHash drawn totalLength) tried url with
        hfails | ⟨peers, hserves⟩
      · obtain ⟨hret, herror, hok⟩ :=
          @ih (tried ++ [url]) fun tier htier => hne tier (List.mem_cons_of_mem _ htier)
        rw [pickTracker_of_fails hfails]
        refine ⟨hret, ?_, hok⟩
        intro hres url' hmem
        rw [List.filterMap_cons_some (List.head?_cons ..)] at hmem
        rcases List.mem_cons.mp hmem with rfl | hmem
        · obtain ⟨more, hmore, -⟩ := tried_of_pickTracker hreturns tiers (tried ++ [url'])
          exact ⟨tried, more, by rw [hmore, List.append_assoc]; rfl, hfails⟩
        · exact herror hres url' hmem
      · rw [pickTracker_of_serves hserves]
        refine ⟨nofun, nofun, ?_⟩
        intro peers' hpeers
        obtain rfl := PickResult.ok.inj hpeers
        exact ⟨tried, url, [], rfl, hserves⟩

theorem Exhausts.mono {args : Announce} {urls' : List String} {pick : Pick}
    (h : Exhausts trackers args urls' pick) (hsub : ∀ url ∈ urls, url ∈ urls') :
    Exhausts trackers args urls pick where
  returns := h.returns
  error := fun hres url hmem => h.error hres url (hsub url hmem)
  ok := h.ok

/-! ## When all are tried -/

/-- No tracker can be reached. -/
def unreachable : Trackers where
  connect := fun _ _ => .error (.error .io)
  announce := fun _ _ _ => .error (.error .io)

theorem unreachable_returns : unreachable.Returns := ⟨nofun, nofun⟩

/-- Where none can be reached, an empty tier is reached. -/
theorem panicked_of_empty :
    ∀ {tiers : List (List String)} {tried : List String}, [] ∈ tiers →
      (pickTracker unreachable infoHash (genPeerId drawn) totalLength tiers tried).result =
        .panicked := by
  intro tiers
  induction tiers with
  | nil => intro tried hmem; cases hmem
  | cons tier tiers ih =>
    intro tried hmem
    cases tier with
    | nil => rfl
    | cons url urls =>
      rw [pickTracker_of_fails (.inl ⟨_, rfl⟩)]
      exact ih ((List.mem_cons.mp hmem).resolve_left nofun)

/-- Whatever the trackers do, all that the torrent names are tried before
`pick_tracker` gives up, exactly when each of them is the first of a tier and no
tier is empty. -/
theorem pickTracker_iff (infoHash : Digest) (drawn : Vector (Fin 62) 20) (totalLength : UInt64)
    (announce : String) (announceList : List (List String)) :
    (∀ trackers : Trackers, trackers.Returns →
      Exhausts trackers (pickAnnounce infoHash drawn totalLength)
        (announce :: announceList.flatten)
        (pickTracker trackers infoHash (genPeerId drawn) totalLength announceList [])) ↔
    (∀ tier ∈ announceList, tier ≠ []) ∧
      ∀ url ∈ announce :: announceList.flatten, ∃ tier ∈ announceList, tier.head? = some url := by
  constructor
  · intro hall
    obtain ⟨hreturns, herror, hok⟩ := hall unreachable unreachable_returns
    constructor
    · intro tier htier hempty
      subst hempty
      exact hreturns (panicked_of_empty htier)
    · intro url hurl
      obtain ⟨more, hmore, hfirst⟩ :=
        @tried_of_pickTracker unreachable infoHash drawn totalLength unreachable_returns
          announceList []
      cases hres : (pickTracker unreachable infoHash (genPeerId drawn) totalLength announceList
          []).result with
      | panicked => exact absurd hres hreturns
      | ok peers =>
        obtain ⟨_, _, _, _, hconnect, -⟩ := hok peers hres
        cases hconnect
      | error =>
        obtain ⟨before, after, htried, -⟩ := herror hres url hurl
        rw [hmore, List.nil_append] at htried
        refine hfirst url ?_
        rw [htried]
        exact List.mem_append_right before (List.mem_cons_self ..)
  · intro hcond trackers hreturns
    refine (exhausts_firsts hreturns hcond.1).mono ?_
    intro url hurl
    exact List.mem_filterMap.mpr (hcond.2 url hurl)

/-- A torrent without an announce list, one with a tracker in the second place of a
tier, and one with an empty tier. -/
theorem trackers_passed_over :
    let pick := fun announceList =>
      pickTracker unreachable (Vector.replicate 20 1) (genPeerId (Vector.replicate 20 0)) 100
        announceList []
    let exhausts := fun announceList : List (List String) =>
      Exhausts unreachable (pickAnnounce (Vector.replicate 20 1) (Vector.replicate 20 0) 100)
        ("udp://a:80" :: announceList.flatten) (pick announceList)
    ¬ exhausts [] ∧ ¬ exhausts [["udp://a:80", "udp://b:80"]] ∧ ¬ exhausts [[]] := by
  intro pick exhausts
  have hnone : pick [] = ⟨[], .error⟩ := rfl
  have hfirst : pick [["udp://a:80", "udp://b:80"]] = ⟨["udp://a:80"], .error⟩ := rfl
  have hempty : pick [[]] = ⟨[], .panicked⟩ := rfl
  refine ⟨?_, ?_, ?_⟩
  · intro h
    obtain ⟨before, after, htried, -⟩ := h.error (by rw [hnone]) "udp://a:80" (by simp)
    rw [hnone] at htried
    simp at htried
  · intro h
    obtain ⟨before, after, htried, -⟩ := h.error (by rw [hfirst]) "udp://b:80" (by simp)
    have hmem : "udp://b:80" ∈ (pick [["udp://a:80", "udp://b:80"]]).tried := by
      rw [htried]
      exact List.mem_append_right before (List.mem_cons_self ..)
    rw [hfirst] at hmem
    simp at hmem
  · intro h
    exact h.returns (by rw [hempty])

end Loop

end BitTorrent
