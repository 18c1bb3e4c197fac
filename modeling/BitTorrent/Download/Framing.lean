import BitTorrent.Download.Codec

/-!
# Frames that fit their type

A call of `decode` that returns should take the declared frame off the buffer,
no more and no less, and look at nothing behind it (`Synced`). It takes what the
type reads (`decode_length`) and does not look behind that (`decode_append`), so
it stays in its frame exactly when the declared length is the one of the type
(`Fits`): `decode_synced_iff`. Where it is not, the rest of the payload is taken
for the next frame, or bytes of the next frame for the payload.

"Looks at nothing behind it" is said by comparison: on the frame alone, and on the
frame with anything behind it, the outcome is the same. The error of an unknown type
is an outcome like a message, and its frame has to be taken, too. A call that panics
does not return, and the buffers on which `decode` panics are the matter of
`Download.Codec`.
-/

namespace BitTorrent

namespace MessageCodec

/-- The declared length is the one the type requires. -/
def Fits (src : List UInt8) : Prop :=
  Complete src → msgLen src ≠ 0 → match msgType src with
    | some .have => msgLen src = 5
    | some .request | some .cancel => msgLen src = 13
    | some .bitfield => True
    | some .piece => 9 ≤ msgLen src
    | _ => msgLen src = 1

/-- A call that returns a message or an error took the declared frame, and
returns the same whatever comes behind it. -/
def Synced (p : Profile) (src : List UInt8) : Prop :=
  ∀ v rest, decode p src = (v, rest) → v ≠ .more → v ≠ .stop .panicked →
    rest = src.drop (4 + msgLen src) ∧
    ∀ tail, decode p (src.take (4 + msgLen src) ++ tail) = (v, tail)

section Framing

variable {p : Profile} {src rest : List UInt8}

theorem msgLen_append (h : 4 ≤ src.length) (tail : List UInt8) :
    msgLen (src ++ tail) = msgLen src := by
  unfold msgLen
  rw [List.take_append_of_le_length h]

theorem msgLen_take {k : Nat} (h : 4 ≤ k) : msgLen (src.take k) = msgLen src := by
  unfold msgLen
  rw [List.take_take, Nat.min_eq_left h]

theorem msgType_take {k : Nat} (h : 4 < k) : msgType (src.take k) = msgType src := by
  unfold msgType
  rw [List.getElem?_take_of_lt h]

/-- What a call took off the front, it takes whatever comes behind. -/
theorem decode_append {v : Verdict Message DecodeStop} (h : decode p src = (v, rest))
    (hmore : v ≠ .more) (hpanic : v ≠ .stop .panicked) (tail : List UInt8) :
    decode p (src ++ tail) = (v, rest ++ tail) := by
  by_cases hc : Complete src
  · have hlen := hc.2
    have hc' : Complete (src ++ tail) := by
      refine ⟨?_, ?_⟩
      · rw [List.length_append]
        omega
      · rw [msgLen_append hc.1, List.length_append]
        omega
    by_cases h0 : msgLen src = 0
    · rw [decode_keepAlive hc h0] at h
      obtain ⟨rfl, rfl⟩ := Prod.mk.inj h
      rw [decode_keepAlive hc' (by rw [msgLen_append hc.1, h0]),
        List.drop_append_of_le_length hc.1]
    · have h0' : msgLen (src ++ tail) ≠ 0 := by rw [msgLen_append hc.1]; exact h0
      have hdrop : (src ++ tail).drop 5 = src.drop 5 ++ tail :=
        List.drop_append_of_le_length (by omega)
      have htype : msgType (src ++ tail) = msgType src := by
        unfold msgType
        rw [List.getElem?_append_left (by omega)]
      cases ht : msgType src with
      | none =>
        rw [decode_invalid hc h0 ht] at h
        obtain ⟨rfl, rfl⟩ := Prod.mk.inj h
        rw [decode_invalid hc' h0' (htype.trans ht), hdrop]
      | some t =>
        rw [decode_typed hc h0 ht] at h
        rw [decode_typed hc' h0' (htype.trans ht), hdrop, msgLen_append hc.1]
        cases hbody : decodeBody p (msgLen src) t (src.drop 5) with
        | none =>
          rw [hbody] at h
          exact absurd (Prod.mk.inj h).1.symm hpanic
        | some mr =>
          rw [hbody] at h
          obtain ⟨rfl, rfl⟩ := Prod.mk.inj h
          rw [decodeBody_append hbody tail]
  · rw [decode_more hc] at h
    exact absurd (Prod.mk.inj h).1.symm hmore

/-- The bytes a call takes, when it returns a message or an error. -/
theorem decode_length {v : Verdict Message DecodeStop} (h : decode p src = (v, rest))
    (hmore : v ≠ .more) (hpanic : v ≠ .stop .panicked) :
    rest.length + (if msgLen src = 0 then 4
      else 5 + ((msgType src).map (taken (msgLen src))).getD 0) = src.length := by
  by_cases hc : Complete src
  · have hlen := hc.2
    by_cases h0 : msgLen src = 0
    · rw [decode_keepAlive hc h0] at h
      obtain ⟨-, rfl⟩ := Prod.mk.inj h
      rw [if_pos h0, List.length_drop]
      omega
    · rw [if_neg h0]
      cases ht : msgType src with
      | none =>
        rw [decode_invalid hc h0 ht] at h
        obtain ⟨-, rfl⟩ := Prod.mk.inj h
        rw [Option.map_none, Option.getD_none, List.length_drop]
        omega
      | some t =>
        rw [decode_typed hc h0 ht] at h
        cases hbody : decodeBody p (msgLen src) t (src.drop 5) with
        | none =>
          rw [hbody] at h
          exact absurd (Prod.mk.inj h).1.symm hpanic
        | some mr =>
          rw [hbody] at h
          obtain ⟨-, rfl⟩ := Prod.mk.inj h
          have hbl := decodeBody_length (msgLen_lt src) hbody
          rw [List.length_drop] at hbl
          rw [Option.map_some, Option.getD_some]
          omega
  · rw [decode_more hc] at h
    exact absurd (Prod.mk.inj h).1.symm hmore

/-- A frame that fits is all that a call takes. -/
theorem taken_of_fits (hc : Complete src) (hfits : Fits src) :
    (if msgLen src = 0 then 4 else 5 + ((msgType src).map (taken (msgLen src))).getD 0) =
      4 + msgLen src := by
  by_cases h0 : msgLen src = 0
  · rw [if_pos h0, h0]
  · rw [if_neg h0]
    have h := hfits hc h0
    cases ht : msgType src with
    | none =>
      rw [ht] at h
      rw [h]
      rfl
    | some t =>
      rw [ht] at h
      rw [Option.map_some, Option.getD_some]
      cases t <;> dsimp only [taken] at h ⊢ <;> omega

/-- A call that takes no more and no less than the frame fits it, when its reads
stay inside the buffer. -/
theorem fits_of_taken (hcov : Covered src) (htaken : Complete src →
      (if msgLen src = 0 then 4 else 5 + ((msgType src).map (taken (msgLen src))).getD 0) =
        4 + msgLen src) : Fits src := by
  intro hc h0
  have hcov := hcov hc h0
  have htaken := htaken hc
  rw [if_neg h0] at htaken
  cases ht : msgType src with
  | none =>
    rw [ht, Option.map_none, Option.getD_none] at htaken
    dsimp only
    omega
  | some t =>
    rw [ht] at hcov
    rw [ht, Option.map_some, Option.getD_some] at htaken
    cases t <;> dsimp only [taken] at hcov htaken ⊢ <;> omega

/-- A complete frame is not left for later. -/
theorem decode_ne_more (hc : Complete src) : (decode p src).1 ≠ .more := by
  by_cases h0 : msgLen src = 0
  · rw [decode_keepAlive hc h0]
    simp
  · cases ht : msgType src with
    | none => rw [decode_invalid hc h0 ht]; simp
    | some t =>
      rw [decode_typed hc h0 ht]
      cases decodeBody p (msgLen src) t (src.drop 5) <;> simp

/-! The frame itself, cut out of the buffer. -/

theorem length_frame (hc : Complete src) : (src.take (4 + msgLen src)).length = 4 + msgLen src := by
  have := hc.2
  rw [List.length_take]
  omega

theorem msgLen_frame (src : List UInt8) : msgLen (src.take (4 + msgLen src)) = msgLen src :=
  msgLen_take (Nat.le_add_right ..)

theorem complete_frame (hc : Complete src) : Complete (src.take (4 + msgLen src)) := by
  unfold Complete
  rw [length_frame hc, msgLen_frame]
  omega

theorem fits_frame (hc : Complete src) (h : Fits src) : Fits (src.take (4 + msgLen src)) := by
  intro _ h0
  rw [msgLen_frame] at h0 ⊢
  rw [msgType_take (by omega)]
  exact h hc h0

/-- A frame that fits needs nothing of what is behind it. -/
theorem covered_of_fits (h : Fits src) : Covered src := by
  intro hc h0
  have hlen := hc.2
  have hfit := h hc h0
  cases ht : msgType src with
  | none => exact trivial
  | some t =>
    rw [ht] at hfit
    cases t <;> dsimp only at hfit ⊢ <;> omega

/-- **The framing stays synchronised, exactly when** the declared length is the
one of the type (or the call panics, as `decode_returns_iff` says). -/
theorem decode_synced_iff (p : Profile) (src : List UInt8) :
    Synced p src ↔ (Covered src → Fits src) := by
  constructor
  · intro hsync hcov
    refine fits_of_taken hcov fun hc => ?_
    have hlen := hc.2
    have hpanic : (decode p src).1 ≠ .stop .panicked := (decode_returns_iff p src).mpr hcov
    have hrest := (hsync _ _ rfl (decode_ne_more hc) hpanic).1
    have htook := decode_length (show decode p src = (_, _) from rfl) (decode_ne_more hc) hpanic
    rw [hrest, List.length_drop] at htook
    omega
  · intro hfits v rest h hmore hpanic
    have hc : Complete src := by
      by_contra hc
      rw [decode_more hc] at h
      exact hmore (Prod.mk.inj h).1.symm
    have hcov : Covered src := by
      rw [← decode_returns_iff p src, h]
      exact hpanic
    -- the frame alone decodes to something, and nothing of it is left
    have hfits' := fits_frame hc (hfits hcov)
    have hc' := complete_frame hc
    obtain ⟨v', rest', h'⟩ : ∃ v' rest', decode p (src.take (4 + msgLen src)) = (v', rest') :=
      ⟨_, _, rfl⟩
    have hpanic' := (decode_returns_iff p _).mpr (covered_of_fits hfits')
    have hmore' := decode_ne_more (p := p) hc'
    rw [h'] at hpanic' hmore'
    have hrest : rest' = [] := by
      have htook := decode_length h' hmore' hpanic'
      rw [taken_of_fits hc' hfits', msgLen_frame, length_frame hc] at htook
      exact List.eq_nil_of_length_eq_zero (by omega)
    subst hrest
    -- behind the frame comes the rest of the buffer
    have happ := decode_append h' hmore' hpanic'
    have hsrc := happ (src.drop (4 + msgLen src))
    rw [List.take_append_drop, h, List.nil_append] at hsrc
    obtain ⟨rfl, rfl⟩ := Prod.mk.inj hsrc
    exact ⟨rfl, happ⟩

/-- A `Choke` that declares two bytes: its second byte is taken for the start of
the next frame. -/
theorem long_choke_desyncs : ¬ Synced .release [0, 0, 0, 2, 0, 7] := by
  intro h
  have hrest := (h (.item .choke) [7] (by decide) (by simp) (by simp)).1
  exact absurd hrest (by decide)

end Framing

end MessageCodec

end BitTorrent
