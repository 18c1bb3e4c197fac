import BitTorrent.Download.Wiring

/-!
# Owned pieces were verified

`handle_msg` sets the bit of a piece before it validates the bytes. The history
of a run records the pieces that were validated (`Verified`), and
`owned_verified_iff` says exactly when every owned piece is among them: when
each piece that is set without being owned yet carries the right bytes, and is
not the last one of a bitfield without padding, whose `set` panics before the
validation. A set that fails its validation then changes nothing.

The set and its validation are one step, so this holds in every state, whether
the lock is free or not.

`SetsVerified` is a condition on the state before a step. It asks for the hash of
the bytes that the downloader has collected, and not for what the peer meant to
send. `SameOwned` is what "changes nothing" is for the bitfield: the same pieces
are owned, and `confirmed` and `remaining()` are what they were.
-/

namespace BitTorrent

/-- A downloader assembled bytes for the piece that passed `validate_piece`. -/
structure Verified where
  index : Nat
  bytes : List UInt8
  deriving DecidableEq, Repr

/-- The bytes that a step validates, when they pass. -/
def validated (su : Setup) (σ : Sys) : Action → Option Verified
  | .seed k .setPiece =>
    (σ.completing k).bind fun e =>
      if (σ.bitfield.set e.1).2 = .returned () ∧
        validatePiece su.cfg.sha1 e.2.bytes e.2.pieceHash = true then some ⟨e.1, e.2.bytes⟩
      else none
  | _ => none

/-- Every owned piece was verified. -/
def OwnedVerified (su : Setup) (σ : Sys) (tr : List Verified) : Prop :=
  ∀ i, σ.bitfield.Owns i → ∃ e ∈ tr, e.index = i ∧
    su.cfg.torrent.info.pieces[i]? = some (su.cfg.sha1 e.bytes)

/-- The ownership bits, `confirmed` and `remaining()` are as before. -/
structure SameOwned (p : Profile) (b b' : Bitfield) : Prop where
  owns : ∀ i, b'.Owns i ↔ b.Owns i
  confirmed : b'.confirmed = b.confirmed
  remaining : b'.remaining p = b.remaining p

/-- A step that finds the assembled bytes of a piece wrong leaves the bitfield as
it was. -/
def FailureKeeps (su : Setup) (σ : Sys) (a : Action) : Prop :=
  ∀ k e σ', a = .seed k .setPiece → σ.completing k = some e →
    validatePiece su.cfg.sha1 e.2.bytes e.2.pieceHash = false → sysStep su σ a = some σ' →
    SameOwned su.cfg.profile σ.bitfield σ'.bitfield

/-- A piece that is set is owned already, or its bytes are right and its `set`
does not panic. -/
def SetsVerified (su : Setup) (σ : Sys) : Action → Prop
  | .seed k .setPiece => σ.lock.holder = some (.seed k) → ∀ e ∈ σ.completing k,
    σ.bitfield.Owns e.1 ∨
      validatePiece su.cfg.sha1 e.2.bytes e.2.pieceHash = true ∧ ¬ σ.bitfield.Closes e.1
  | _ => True

section Verified

variable {su : Setup} {σ σ' : Sys} {k i : Nat} {s : SeedDownloader} {dl : PieceDownload}
variable {a : Action} {tr : List Verified}

/-- A task with a complete piece and the lock sets it. -/
theorem setPiece_enabled (hi : σ.Inv su) (hlock : σ.lock.holder = some (.seed k))
    (h : σ.completing k = some (i, dl)) :
    ∃ σ', sysStep su σ (.seed k .setPiece) = some σ' ∧ σ'.bitfield = (σ.bitfield.set i).1 := by
  obtain ⟨s, hk, hs, hdl⟩ := sys_completing h
  have hlive : s.Alive := fun e he => by rw [hs] at he; cases he
  obtain ⟨out, hout⟩ := setPiece_returns hi.bitfield (hi.known k s hk hlive) hs
  refine ⟨σ.put k out.bitfield out.seed, ?_, ?_⟩
  · simp only [sysStep, SeedAct.kind, if_pos hlock]
    exact moveSeed_of_step hk hout
  · show out.bitfield = _
    rw [(effect_of_step hout).2, SeedDownloader.bitOp, hs]
    exact Bitfield.call_set _ i

theorem setPiece_locked (h : sysStep su σ (.seed k .setPiece) = some σ') :
    σ.lock.holder = some (.seed k) := by
  simp only [sysStep, SeedAct.kind] at h
  split at h
  next hlock => exact hlock
  next => cases h

theorem validated_setPiece (h : σ.completing k = some (i, dl)) :
    validated su σ (.seed k .setPiece) =
      if (σ.bitfield.set i).2 = .returned () ∧
          validatePiece su.cfg.sha1 dl.bytes dl.pieceHash = true
      then some ⟨i, dl.bytes⟩ else none := by
  unfold validated
  dsimp only
  rw [h]
  rfl

/-- What was validated has the hash of its piece. -/
theorem validated_eq_some {e : Verified} (h : validated su σ a = some e) :
    ∃ k dl, a = .seed k .setPiece ∧ σ.completing k = some (e.index, dl) ∧ e.bytes = dl.bytes ∧
      dl.pieceHash = su.cfg.sha1 dl.bytes := by
  unfold validated at h
  split at h
  next k =>
    obtain ⟨⟨i, dl⟩, hc, h⟩ := Option.bind_eq_some_iff.mp h
    split at h
    next hv =>
      obtain rfl := Option.some.inj h
      exact ⟨k, dl, rfl, hc, rfl, eq_of_beq hv.2⟩
    next => cases h
  next => cases h

/-- What every run keeps: what was verified is owned, and is what `pieces` says. -/
structure Recorded (su : Setup) (σ : Sys) (tr : List Verified) : Prop extends Sys.Inv su σ where
  owned : ∀ e ∈ tr, σ.bitfield.Owns e.index
  genuine : ∀ e ∈ tr, su.cfg.torrent.info.pieces[e.index]? = some (su.cfg.sha1 e.bytes)

theorem recorded_new (su : Setup) : Recorded su (Sys.new su) [] :=
  ⟨inv_new su, fun _ he => (nomatch he), fun _ he => (nomatch he)⟩

/-- One step keeps the record. -/
theorem recorded_step (h : Recorded su σ tr) (hstep : sysStep su σ a = some σ') :
    Recorded su σ' ((validated su σ a).toList ++ tr) := by
  have hi := h.toInv
  have hold : ∀ {i}, σ.bitfield.Owns i → σ'.bitfield.Owns i :=
    (change_of_step hstep).seeds.owns hi
  have hnew : ∀ e, validated su σ a = some e → σ'.bitfield.Owns e.index ∧
      su.cfg.torrent.info.pieces[e.index]? = some (su.cfg.sha1 e.bytes) := by
    intro e he
    obtain ⟨k, dl, rfl, hc, hbytes, hhash⟩ := validated_eq_some he
    have hk := known_of_completing hi hc
    obtain ⟨σ₁, hstep₁, hb⟩ := setPiece_enabled hi (setPiece_locked hstep) hc
    obtain rfl := Option.some.inj (hstep.symm.trans hstep₁)
    refine ⟨?_, by rw [hk.hash, hhash, hbytes]⟩
    rw [hb]
    exact (Bitfield.owns_set hi.bitfield su.cfg.torrent.numPieces_lt hk.lt _).mpr (Or.inr rfl)
  refine ⟨inv_step hi hstep, fun e he => ?_, fun e he => ?_⟩
  · rcases List.mem_append.mp he with he | he
    · exact (hnew e (Option.mem_toList.mp he)).1
    · exact hold (h.owned e he)
  · rcases List.mem_append.mp he with he | he
    · exact (hnew e (Option.mem_toList.mp he)).2
    · exact h.genuine e he

/-- A step that sets only verified pieces. -/
theorem ownedVerified_step (h : Recorded su σ tr) (hv : OwnedVerified su σ tr)
    (hok : SetsVerified su σ a) (hstep : sysStep su σ a = some σ') :
    OwnedVerified su σ' ((validated su σ a).toList ++ tr) := by
  have hi := h.toInv
  have hold : ∀ i, σ.bitfield.Owns i → ∃ e ∈ (validated su σ a).toList ++ tr, e.index = i ∧
      su.cfg.torrent.info.pieces[i]? = some (su.cfg.sha1 e.bytes) := by
    intro i hi
    obtain ⟨e, he, hei⟩ := hv i hi
    exact ⟨e, List.mem_append_right _ he, hei⟩
  intro i hown
  rcases owns_of_step hi hstep hown with hown | ⟨k, dl, rfl, hc⟩
  · exact hold i hown
  · have hk := known_of_completing hi hc
    rcases hok (setPiece_locked hstep) (i, dl) hc with hown | ⟨hvalid, hcloses⟩
    · exact hold i hown
    · have hret : (σ.bitfield.set i).2 = .returned () :=
        Bitfield.set_returned hi.bitfield su.cfg.torrent.numPieces_lt hk.lt fun hp =>
          hcloses ((Bitfield.set_panics_iff_closes hi.bitfield su.cfg.torrent.numPieces_lt
            hk.lt).mp hp).2
      refine ⟨⟨i, dl.bytes⟩, List.mem_append_left _ ?_, rfl, ?_⟩
      · rw [validated_setPiece hc, if_pos ⟨hret, hvalid⟩]
        exact List.mem_singleton_self _
      · rw [hk.hash]
        exact congrArg some (eq_of_beq hvalid)

/-- A set that is verified is no failure, unless the piece is owned already, and
then nothing changes. -/
theorem failureKeeps_of_sets (hi : σ.Inv su) (hok : SetsVerified su σ a) :
    FailureKeeps su σ a := by
  intro k ⟨i, dl⟩ σ' ha hc hvalid hstep
  subst ha
  have hk := known_of_completing hi hc
  have hn := su.cfg.torrent.numPieces_lt
  have hown : σ.bitfield.Owns i := by
    rcases hok (setPiece_locked hstep) (i, dl) hc with hown | ⟨hv, -⟩
    · exact hown
    · rw [hvalid] at hv
      cases hv
  obtain ⟨σ₁, hstep₁, hb⟩ := setPiece_enabled hi (setPiece_locked hstep) hc
  obtain rfl := Option.some.inj (hstep.symm.trans hstep₁)
  have hi' := (inv_step hi hstep).bitfield
  have hsame : ∀ j, σ'.bitfield.Owns j ↔ σ.bitfield.Owns j := by
    intro j
    rw [hb, Bitfield.owns_set hi.bitfield hn hk.lt]
    exact ⟨fun h => h.elim id (· ▸ hown), Or.inl⟩
  refine ⟨hsame, hi.bitfield.confirmed_congr hi' hsame, ?_⟩
  rw [hi'.remaining_eq hn, hi.bitfield.remaining_eq hn, hi.bitfield.missing_congr hi' hsame]

/-- A piece set without being verified stays unverified. -/
theorem setsVerified_of_owned (h : Recorded su σ tr)
    (hnext : ∀ p', traced (sysStep su) (validated su) (σ, tr) a = some p' →
      OwnedVerified su p'.1 p'.2) : SetsVerified su σ a := by
  have hi := h.toInv
  have hn := su.cfg.torrent.numPieces_lt
  unfold SetsVerified
  split
  next k =>
    intro hlock ⟨i, dl⟩ hc
    have hk := known_of_completing hi hc
    obtain ⟨σ', hstep, hb⟩ := setPiece_enabled hi hlock hc
    by_contra hno
    obtain ⟨hun, hbad⟩ := not_or.mp hno
    have hsilent : validated su σ (.seed k .setPiece) = none := by
      rw [validated_setPiece hc, if_neg]
      intro hgood
      refine hbad ⟨hgood.2, fun hcloses => ?_⟩
      have hpanic := (Bitfield.set_panics_iff_closes hi.bitfield hn hk.lt).mpr ⟨hun, hcloses⟩
      rw [hpanic] at hgood
      cases hgood.1
    have hown : σ'.bitfield.Owns i := by
      rw [hb]
      exact (Bitfield.owns_set hi.bitfield hn hk.lt i).mpr (Or.inr rfl)
    obtain ⟨e, he, hei, -⟩ := hnext (σ', tr)
      (by unfold traced; rw [hstep, hsilent]; rfl) i hown
    exact hun (hei ▸ h.owned e he)
  next => trivial

/-- **Owned pieces were verified, exactly when** every piece that is set without
being owned has the right bytes and does not close a bitfield without padding.
A piece that fails its validation then leaves the bitfield as it was. -/
theorem owned_verified_iff (su : Setup) (acts : List Action) :
    AllStates (traced (sysStep su) (validated su)) (fun p => OwnedVerified su p.1 p.2)
        (Sys.new su, []) acts ∧
      AllSteps (traced (sysStep su) (validated su)) (fun p a => FailureKeeps su p.1 a)
        (Sys.new su, []) acts ↔
    AllSteps (traced (sysStep su) (validated su)) (fun p a => SetsVerified su p.1 a)
      (Sys.new su, []) acts := by
  have hrec : ∀ p a p', Recorded su p.1 p.2 → traced (sysStep su) (validated su) p a = some p' →
      Recorded su p'.1 p'.2 := by
    intro p a p' h hs
    obtain ⟨hstep, htr⟩ := traced_eq_some hs
    rw [htr]
    exact recorded_step h hstep
  constructor
  · intro h
    exact allSteps_of_allStates (P := fun p => Recorded su p.1 p.2)
      (fun p a p' h _ hs => hrec p a p' h hs)
      (fun p a hp _ hnext => setsVerified_of_owned hp hnext) (recorded_new su) h.1
  · intro hok
    have hkeep : ∀ p a p', Recorded su p.1 p.2 ∧ OwnedVerified su p.1 p.2 →
        SetsVerified su p.1 a → traced (sysStep su) (validated su) p a = some p' →
        Recorded su p'.1 p'.2 ∧ OwnedVerified su p'.1 p'.2 := by
      intro p a p' hp hok hs
      refine ⟨hrec p a p' hp.1 hs, ?_⟩
      obtain ⟨hstep, htr⟩ := traced_eq_some hs
      rw [htr]
      exact ownedVerified_step hp.1 hp.2 hok hstep
    have hstart : Recorded su (Sys.new su) [] ∧ OwnedVerified su (Sys.new su) [] :=
      ⟨recorded_new su, fun i hi => absurd hi (Bitfield.zero_owns _ i)⟩
    exact ⟨(allStates_of_invariant hkeep hstart hok).mono fun _ hp => hp.2,
      allSteps_of_invariant hkeep (fun p a hp hok => failureKeeps_of_sets hp.1.toInv hok)
        hstart hok⟩

/-- A corrupt block, and its piece is owned. -/
theorem corrupt_piece_owned :
    ¬ AllStates (traced (sysStep (lone .dev)) (validated (lone .dev)))
      (fun p => p.1.lock.holder = none → OwnedVerified (lone .dev) p.1 p.2)
      (Sys.new (lone .dev), [])
      ([.pickSeeds, .peer true, .picked] ++ Action.join 0 ++ Action.assemble 0 0 0) := by
  intro h
  have h0 := h.mono fun _ hp hfree => hp hfree 0
  revert h0
  decide +kernel

end Verified

end BitTorrent
