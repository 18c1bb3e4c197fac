import BitTorrent.Lib.Machine

/-!
# Intervals that tile a range

An interval is a pair `(b, len)`, and stands for `[b, b + len)`. `Tiles lo es hi`
says that the intervals `es` follow one another from `lo` to `hi`: the first
begins at `lo`, each of the others where the one before it ends, and the last
ends at `hi`. Every offset is then in one of them (`Tiles.covers`), no two
overlap (`Tiles.ordered`), and their lengths add up (`Tiles.spanned_eq`).

A buffer is filled through such intervals: `Holds v b w` says that the vector `v`
has `w` from `b` on. `splice` writes one interval and keeps what the others hold
(`holds_splice`, `Holds.splice`), and when each of them holds its content the
vector is the contents in a row (`Tiles.flatMap_eq`).
-/

namespace BitTorrent

/-- The intervals, given by their beginning and length, lie end to end from `lo` to
`hi`. -/
def Tiles : Nat → List (Nat × Nat) → Nat → Prop
  | lo, [], hi => lo = hi
  | lo, (b, len) :: es, hi => b = lo ∧ Tiles (lo + len) es hi

/-- The lengths of the intervals, added up. -/
def spanned (es : List (Nat × Nat)) : Nat := es.foldr (fun e n => e.2 + n) 0

section Tiles

variable {lo mid hi : Nat} {es es' : List (Nat × Nat)}

/-- Tilings in a row. -/
theorem Tiles.append (h : Tiles lo es mid) (h' : Tiles mid es' hi) : Tiles lo (es ++ es') hi := by
  induction es generalizing lo with
  | nil =>
    have hlo : lo = mid := h
    rw [hlo]
    exact h'
  | cons e es ih => exact ⟨h.1, ih h.2⟩

/-- The lengths add up. -/
theorem Tiles.spanned_eq (h : Tiles lo es hi) : lo + spanned es = hi := by
  induction es generalizing lo with
  | nil => exact h
  | cons e es ih =>
    have htail := ih h.2
    show lo + (e.2 + spanned es) = hi
    omega

/-- Every interval is inside the range. -/
theorem Tiles.mem (h : Tiles lo es hi) {e : Nat × Nat} (he : e ∈ es) :
    lo ≤ e.1 ∧ e.1 + e.2 ≤ hi := by
  induction es generalizing lo with
  | nil => exact absurd he List.not_mem_nil
  | cons e' es ih =>
    have hfirst : e'.1 = lo := h.1
    rcases List.mem_cons.mp he with heq | hmem
    · have hend := Tiles.spanned_eq h.2
      rw [heq]
      omega
    · have htail := ih h.2 hmem
      omega

/-- Every place is in one of the intervals. -/
theorem Tiles.covers (h : Tiles lo es hi) {o : Nat} (hlo : lo ≤ o) (hhi : o < hi) :
    ∃ e ∈ es, e.1 ≤ o ∧ o < e.1 + e.2 := by
  induction es generalizing lo with
  | nil =>
    have hnil : lo = hi := h
    omega
  | cons e es ih =>
    have hfirst : e.1 = lo := h.1
    by_cases hin : o < lo + e.2
    · exact ⟨e, List.mem_cons_self .., by omega, by omega⟩
    · -- the offset is behind the first interval
      obtain ⟨e', he', hle, hlt⟩ := ih h.2 (by omega)
      exact ⟨e', List.mem_cons_of_mem e he', hle, hlt⟩

/-- Each interval ends before the later ones begin. -/
theorem Tiles.ordered (h : Tiles lo es hi) : es.Pairwise fun e e' => e.1 + e.2 ≤ e'.1 := by
  induction es generalizing lo with
  | nil => exact List.Pairwise.nil
  | cons e es ih =>
    have hfirst : e.1 = lo := h.1
    refine List.Pairwise.cons ?_ (ih h.2)
    intro e' he'
    have hafter := (Tiles.mem h.2 he').1
    omega

/-- Intervals that are numbered, each ending where the next one begins. -/
theorem tiles_range {b len : Nat → Nat} (n : Nat) (h : ∀ i, i < n → b i + len i = b (i + 1)) :
    Tiles (b 0) ((List.range n).map fun i => (b i, len i)) (b n) := by
  induction n with
  | zero => rfl
  | succ n ih =>
    have hfront := ih fun i hi => h i (by omega)
    have hlast : Tiles (b n) [(b n, len n)] (b (n + 1)) := ⟨rfl, h n (by omega)⟩
    rw [List.range_succ, List.map_append]
    exact hfront.append hlast

end Tiles

/-! ## Buffers -/

section Holds

variable {α ι : Type} {v v' w new : List α} {b e j : Nat}

/-- The list `w` stands in `v` from `b` on. -/
def Holds (v : List α) (b : Nat) (w : List α) : Prop := ∀ o, o < w.length → v[b + o]? = w[o]?

theorem holds_splice (h : splice v b e new = some v') (hnew : new.length = e - b) :
    Holds v' b new := by
  intro o ho
  rw [splice_getElem?_mem h hnew (by omega) (by omega), Nat.add_sub_cancel_left]

/-- What lies beside the range keeps its content. -/
theorem Holds.splice (hc : Holds v j w) (h : splice v b e new = some v')
    (hnew : new.length = e - b) (hout : j + w.length ≤ b ∨ e ≤ j) : Holds v' j w := by
  intro o ho
  rw [splice_getElem?_not_mem h hnew (by omega)]
  exact hc o ho

/-- What stands there can be taken out. -/
theorem Holds.take_eq (h : Holds v b w) : (v.drop b).take w.length = w := by
  refine List.ext_getElem? fun o => ?_
  by_cases ho : o < w.length
  · rw [List.getElem?_take_of_lt ho, List.getElem?_drop]
    exact h o ho
  · have hlen : ((v.drop b).take w.length).length ≤ o := by
      rw [List.length_take, List.length_drop]
      omega
    rw [List.getElem?_eq_none hlen, List.getElem?_eq_none (by omega)]

/-- A vector whose intervals all hold their contents. -/
theorem Tiles.flatMap_eq {is : List ι} {begin : ι → Nat} {content : ι → List α} {lo : Nat}
    (h : Tiles lo (is.map fun i => (begin i, (content i).length)) v.length)
    (hc : ∀ i ∈ is, Holds v (begin i) (content i)) : v.drop lo = is.flatMap content := by
  induction is generalizing lo with
  | nil =>
    have hlo : lo = v.length := h
    rw [hlo]
    exact List.drop_length
  | cons i is ih =>
    have hfirst : begin i = lo := h.1
    have htail := ih h.2 fun i' hi' => hc i' (List.mem_cons_of_mem i hi')
    have hhead : Holds v lo (content i) := hfirst ▸ hc i (List.mem_cons_self ..)
    rw [List.flatMap_cons, ← htail, ← List.drop_drop]
    calc v.drop lo
        = (v.drop lo).take (content i).length ++ (v.drop lo).drop (content i).length :=
          (List.take_append_drop ..).symm
      _ = content i ++ (v.drop lo).drop (content i).length := by rw [hhead.take_eq]

end Holds

end BitTorrent
