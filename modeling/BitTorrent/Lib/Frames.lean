import Mathlib.Data.List.Basic

/-!
# Decoders on a stream that arrives in chunks

A decoder looks at the bytes received so far. It asks for `more`, takes an
`item` off the front, or `stop`s, and it says what is left of the buffer. An
item takes at least one byte (`consumes`), so a loop that decodes until the
decoder asks for more ends (`drain`). `receive` is that loop, run after each
chunk.

`Encodes dec enc ok` is what makes a codec: the encoding of an item, followed by
anything, decodes to the item and leaves the rest, and a proper prefix of an
encoding makes the decoder wait, with the buffer untouched. Then it does not
matter how the stream is cut: `receive_frames`.

`next` reads until there is one item, and leaves what arrived behind it in the
buffer. Another decoder may go on from there.

This is `Framed` of `tokio_util` with the reads of its stream as a list. The chunks
may be empty and of any size. What `Framed` does at the end of a stream is left to
those who use it, and so is what becomes of a stream after an error.
-/

namespace BitTorrent

variable {α β ε : Type}

/-- What a decoder makes of the bytes it is shown. -/
inductive Verdict (α ε : Type)
  | more
  | item (a : α)
  | stop (e : ε)
  deriving DecidableEq, Repr

/-- A decoder of a stream: it looks at the buffer, and takes something off when it
returns an item. -/
structure StreamDecoder (β α ε : Type) where
  run : List β → Verdict α ε × List β
  consumes : ∀ {buf rest : List β} {a : α}, run buf = (.item a, rest) → rest.length < buf.length

/-- What came out of a stream: the items, what ended it, the bytes that are left. -/
structure Received (β α ε : Type) where
  items : List α
  stopped : Option ε
  rest : List β
  deriving DecidableEq, Repr

/-- Items that came before. -/
def Received.prepend (as : List α) (r : Received β α ε) : Received β α ε :=
  { r with items := as ++ r.items }

namespace StreamDecoder

/-- Decode until the decoder asks for more. -/
@[semireducible] def drain (dec : StreamDecoder β α ε) (buf : List β) : Received β α ε :=
  match _h : dec.run buf with
  | (.more, rest) => ⟨[], none, rest⟩
  | (.stop e, rest) => ⟨[], some e, rest⟩
  | (.item a, rest) => (dec.drain rest).prepend [a]
termination_by buf.length
decreasing_by exact dec.consumes _h

/-- Append each chunk to the buffer and drain it, until something stops the stream. -/
def receive (dec : StreamDecoder β α ε) : List β → List (List β) → Received β α ε
  | buf, [] => ⟨[], none, buf⟩
  | buf, chunk :: chunks =>
    let d := dec.drain (buf ++ chunk)
    match d.stopped with
    | some _ => d
    | none => (dec.receive d.rest chunks).prepend d.items

section Drain

variable {dec : StreamDecoder β α ε} {buf rest : List β}

/-- Draining stops when the decoder waits. -/
theorem drain_more (h : dec.run buf = (.more, rest)) : dec.drain buf = ⟨[], none, rest⟩ := by
  unfold drain
  split
  next heq => rw [h] at heq; rw [← (Prod.mk.inj heq).2]
  next heq => rw [h] at heq; cases (Prod.mk.inj heq).1
  next heq => rw [h] at heq; cases (Prod.mk.inj heq).1

/-- Draining goes on behind an item. -/
theorem drain_item {a : α} (h : dec.run buf = (.item a, rest)) :
    dec.drain buf = (dec.drain rest).prepend [a] := by
  conv_lhs => unfold drain
  split
  next heq => rw [h] at heq; cases (Prod.mk.inj heq).1
  next heq => rw [h] at heq; cases (Prod.mk.inj heq).1
  next heq =>
    rw [h] at heq
    obtain ⟨ha, hr⟩ := Prod.mk.inj heq
    rw [Verdict.item.inj ha, hr]

end Drain

/-- The next item, with the buffer and the chunks that are left. It is `more`
when the chunks are used up. -/
def next (dec : StreamDecoder β α ε) :
    List β → List (List β) → Verdict α ε × List β × List (List β)
  | buf, [] => ((dec.run buf).1, (dec.run buf).2, [])
  | buf, chunk :: chunks =>
    match dec.run buf with
    | (.more, rest) => dec.next (rest ++ chunk) chunks
    | (v, rest) => (v, rest, chunk :: chunks)

/-- The decoder takes nothing of the buffer while it asks for more. -/
def Keeps (dec : StreamDecoder β α ε) : Prop := ∀ buf rest, dec.run buf = (.more, rest) → rest = buf

/-- The verdict of `next` is that of one call, on the bytes that came before what is left. -/
theorem Keeps.next_run {dec : StreamDecoder β α ε} (hkeep : dec.Keeps) {v : Verdict α ε}
    (hv : v ≠ .more) {rest : List β} {left : List (List β)} :
    ∀ {chunks : List (List β)} {buf : List β}, dec.next buf chunks = (v, rest, left) →
      ∃ received, dec.run received = (v, rest) ∧
        received ++ left.flatten = buf ++ chunks.flatten := by
  intro chunks
  induction chunks with
  | nil =>
    intro buf h
    obtain ⟨hrun, hleft⟩ := Prod.mk.inj h
    obtain ⟨hrest, rfl⟩ := Prod.mk.inj hleft
    exact ⟨buf, Prod.ext hrun hrest, rfl⟩
  | cons chunk chunks ih =>
    intro buf h
    unfold next at h
    split at h
    next rest' hrun =>
      obtain rfl := hkeep _ _ hrun
      obtain ⟨received, hitem, heq⟩ := ih h
      exact ⟨received, hitem, by rw [heq, List.flatten_cons, List.append_assoc]⟩
    next v' rest' _ hrun =>
      obtain ⟨rfl, hleft⟩ := Prod.mk.inj h
      obtain ⟨rfl, rfl⟩ := Prod.mk.inj hleft
      exact ⟨buf, hrun, rfl⟩

/-- `enc` and `dec` belong together, on the items that are `ok`. -/
structure Encodes (dec : StreamDecoder β α ε) (enc : α → List β) (ok : α → Prop) : Prop where
  nil : dec.run [] = (.more, [])
  frame : ∀ {a : α}, ok a → ∀ tail, dec.run (enc a ++ tail) = (.item a, tail)
  part : ∀ {a : α} {buf : List β}, ok a → buf <+: enc a → buf ≠ enc a → dec.run buf = (.more, buf)

/-- The bytes at hand are a proper part of the next encoding. -/
def Waits (enc : α → List β) (buf : List β) : List α → Prop
  | [] => buf = []
  | a :: _ => buf <+: enc a ∧ buf ≠ enc a

/-- Of an encoding and what follows it, a part has arrived: a proper part of the
encoding, or all of it and some of the rest. -/
theorem part_or_whole {buf more code tail : List β} (heq : buf ++ more = code ++ tail) :
    (buf <+: code ∧ buf ≠ code) ∨ ∃ got, buf = code ++ got ∧ got ++ more = tail := by
  rcases List.append_eq_append_iff.mp heq with ⟨x, hx, hmore⟩ | ⟨x, hx, htail⟩
  · by_cases hbuf : buf = code
    · rw [hbuf] at hx
      obtain rfl := List.append_right_eq_self.mp hx.symm
      exact Or.inr ⟨[], by rw [hbuf, List.append_nil], hmore⟩
    · exact Or.inl ⟨⟨x, hx.symm⟩, hbuf⟩
  · exact Or.inr ⟨x, hx, htail.symm⟩

section Encodes

variable {dec : StreamDecoder β α ε} {enc : α → List β} {ok : α → Prop}

/-- Draining takes off the items that have arrived in full and keeps what there
is of the next one. -/
theorem drain_frames (h : Encodes dec enc ok) {more : List β} :
    ∀ {as : List α} {buf : List β}, (∀ a ∈ as, ok a) → buf ++ more = (as.map enc).flatten →
      ∃ as₁ as₂ rest, as = as₁ ++ as₂ ∧ dec.drain buf = ⟨as₁, none, rest⟩ ∧
        rest ++ more = (as₂.map enc).flatten ∧ Waits enc rest as₂ := by
  intro as
  induction as with
  | nil =>
    intro buf _ heq
    have hbuf : buf = [] := (List.append_eq_nil_iff.mp heq).1
    subst hbuf
    exact ⟨[], [], [], rfl, drain_more h.nil, heq, rfl⟩
  | cons a as ih =>
    intro buf hok heq
    have ha : ok a := hok a (List.mem_cons_self ..)
    rw [List.map_cons, List.flatten_cons] at heq
    rcases part_or_whole heq with hpart | ⟨tail, rfl, htail⟩
    · exact ⟨[], a :: as, buf, rfl, drain_more (h.part ha hpart.1 hpart.2), heq, hpart⟩
    · -- the whole of the next encoding is there
      obtain ⟨as₁, as₂, rest, rfl, hdrain, hrest, hwaits⟩ :=
        ih (fun b hb => hok b (List.mem_cons_of_mem _ hb)) htail
      refine ⟨a :: as₁, as₂, rest, rfl, ?_, hrest, hwaits⟩
      rw [drain_item (h.frame ha tail), hdrain]
      rfl

/-- All items arrive, one by one, whatever the chunks are. -/
theorem receive_waits (h : Encodes dec enc ok) :
    ∀ {chunks : List (List β)} {buf : List β} {as : List α}, (∀ a ∈ as, ok a) →
      buf ++ chunks.flatten = (as.map enc).flatten → Waits enc buf as →
      dec.receive buf chunks = ⟨as, none, []⟩ := by
  intro chunks
  induction chunks with
  | nil =>
    intro buf as _ heq hwaits
    rw [List.flatten_nil, List.append_nil] at heq
    cases as with
    | nil =>
      rw [show buf = [] from hwaits]
      rfl
    | cons a as =>
      -- a proper part of the next encoding is not all of the rest
      obtain ⟨⟨x, hx⟩, hne⟩ := hwaits
      rw [List.map_cons, List.flatten_cons, ← hx, List.append_assoc] at heq
      have hx' : x = [] := (List.append_eq_nil_iff.mp (List.append_right_eq_self.mp heq.symm)).1
      rw [hx', List.append_nil] at hx
      exact absurd hx hne
  | cons chunk chunks ih =>
    intro buf as hok heq _
    rw [List.flatten_cons, ← List.append_assoc] at heq
    obtain ⟨as₁, as₂, rest, rfl, hdrain, hrest, hwaits⟩ := drain_frames h hok heq
    have htail := ih (fun b hb => hok b (List.mem_append_right _ hb)) hrest hwaits
    unfold receive
    rw [hdrain]
    dsimp only
    rw [htail]
    rfl

/-- **However the stream is cut**, what is received is what was encoded, and
nothing is left. -/
theorem receive_frames (h : Encodes dec enc ok) {as : List α} (hok : ∀ a ∈ as, ok a)
    {chunks : List (List β)} (heq : chunks.flatten = (as.map enc).flatten) :
    dec.receive [] chunks = ⟨as, none, []⟩ := by
  refine receive_waits h hok heq ?_
  cases as with
  | nil => rfl
  | cons a as =>
    refine ⟨List.nil_prefix, fun hnil => ?_⟩
    have hframe := h.frame (hok a (List.mem_cons_self ..)) []
    rw [← hnil] at hframe
    rw [List.append_nil, h.nil] at hframe
    cases (Prod.mk.inj hframe).1

/-- The encoding of an item is at the front of the stream: it is the next item,
and what comes behind it is left. -/
theorem next_frame (h : Encodes dec enc ok) {a : α} (ha : ok a) {tail : List β} :
    ∀ {chunks : List (List β)} {buf : List β}, buf ++ chunks.flatten = enc a ++ tail →
      ∃ rest left, dec.next buf chunks = (.item a, rest, left) ∧ rest ++ left.flatten = tail := by
  intro chunks
  induction chunks with
  | nil =>
    intro buf heq
    rw [List.flatten_nil, List.append_nil] at heq
    refine ⟨tail, [], ?_, List.append_nil tail⟩
    unfold next
    rw [heq, h.frame ha tail]
  | cons chunk chunks ih =>
    intro buf heq
    unfold next
    rcases part_or_whole heq with ⟨hpre, hne⟩ | ⟨got, rfl, hgot⟩
    · rw [h.part ha hpre hne]
      refine ih ?_
      rw [← heq, List.flatten_cons, List.append_assoc]
    · rw [h.frame ha got]
      exact ⟨got, chunk :: chunks, rfl, hgot⟩

end Encodes

end StreamDecoder

end BitTorrent
