import Savannah.Foundation.Run
import Savannah.Foundation.Slots
import Savannah.Foundation.Bytes

/-!
# The network driver

`drivers/net/e1000/main.c` shares two rings of 256 descriptors with the network card, each with a
buffer of 2048 bytes per descriptor.

*Receiving.* The card stores the `k`-th packet in the buffer of the descriptor `k % 256` and its
length in the descriptor, until its head reaches `RDT`.  `e1000_read` hands the buffer after the
tail to lwIP; the buffer is that of the right packet in every interleaving (`Rx.passed_of_run`).
The length is taken from the descriptor *at* the tail, though, one before that of the packet, and
after the tail was moved, when the card may store a packet there.

*Sending.* `e1000_write` fills the descriptor at `TDT` and moves `TDT`; the card consumes from `TDH`
up to `TDT`.  The driver never looks at `TDH`.  As long as there is a free descriptor besides the
one it fills, every frame is consumed once and in order; with 255 frames pending the next one makes
the ring look empty.

The addresses of buffers are relative to `rx_buf` and `tx_buf`.
-/

namespace Savannah.E1000

open Foundation

/-- `E1000_RXDESC_NR` and `E1000_TXDESC_NR` -/
abbrev descNr : ℕ := 256

/-- `E1000_IOBUF_SIZE` -/
abbrev iobufSize : ℕ := 2048

/-- A packet or frame; it fits into one buffer. -/
structure Packet where
  bytes : List UInt8
  fits : bytes.length ≤ iobufSize

/-- The slot `j` of a buffer has the bytes of a packet. -/
def HasBytes (buf : Bytes) (j : ℕ) (p : Packet) : Prop :=
  buf.load (j * iobufSize) p.bytes.length = p.bytes

/-- Bytes written to one slot leave the other slots. -/
theorem HasBytes.store {buf : Bytes} {i j : ℕ} {p : Packet} {l : List UInt8} (h : HasBytes buf j p)
    (off : ℕ) (hij : j ≠ i) (hl : off + l.length ≤ iobufSize) :
    HasBytes (buf.store (i * iobufSize + off) l) j p := by
  have hp := p.fits
  unfold HasBytes iobufSize at *
  rw [Bytes.load_store_of_disjoint, h]
  rcases Nat.lt_or_gt_of_ne hij with hlt | hgt
  · left
    omega
  · right
    omega

/-- A packet just written to its slot. -/
theorem HasBytes.new (buf : Bytes) (j : ℕ) (p : Packet) :
    HasBytes (buf.store (j * iobufSize) p.bytes) j p :=
  Bytes.load_store

/-! ## Receiving -/

/-- `struct e1000_rx_desc`, with the fields that are used. -/
structure RxDesc where
  buffer : ℕ
  length : ℕ

/-- A call `lwip_input (buf, len)`, with the contents of `rx_buf` at that time. -/
structure Input where
  buf : ℕ
  len : ℕ
  memory : Bytes

/-- The receive ring, its registers, and `tail` and `cur` of a call of `e1000_read` that has moved
the tail and not yet called `lwip_input`.  The packets the card has stored and the calls of
`lwip_input` are remembered. -/
structure Rx where
  desc : ℕ → RxDesc
  buf : Bytes
  rdh : ℕ
  rdt : ℕ
  reading : Option (ℕ × ℕ)
  received : List Packet
  inputs : List Input

namespace Rx

/-- The receive half of `e1000_init_buf`.  It leaves the lengths of the descriptors. -/
def e1000InitBuf (desc : ℕ → RxDesc) (buf : Bytes) : Rx where
  desc := fun j => if j < descNr then { desc j with buffer := j * iobufSize } else desc j
  buf := buf
  rdh := 0
  rdt := descNr - 1
  reading := none
  received := []
  inputs := []

/-- What happens: a packet arrives, and the two parts of `e1000_read`. -/
inductive Event
  | arrive (p : Packet)
  | moveTail
  | input

/-- The card stores a packet in the descriptor at its head. -/
def store (s : Rx) (p : Packet) : Rx :=
  { s with
    desc := Function.update s.desc s.rdh { s.desc s.rdh with length := p.bytes.length }
    buf := s.buf.store (s.desc s.rdh).buffer p.bytes
    rdh := (s.rdh + 1) % descNr
    received := s.received ++ [p] }

/-- `e1000_read` up to the write to `RDT`, from where on `tail` and `cur` are known. -/
def moveTail (s : Rx) : Rx :=
  let tail := s.rdt
  let cur := (tail + 1) % descNr
  { s with rdt := cur, reading := some (tail, cur) }

/-- The rest of `e1000_read`: `lwip_input (buf, desc->length)`. -/
def input (s : Rx) (tail cur : ℕ) : Rx :=
  { s with
    reading := none
    inputs := s.inputs ++ [⟨cur * iobufSize, (s.desc tail).length, s.buf⟩] }

/-- The steps.  The card stops when its head reaches the tail; `e1000_read` is called once for each
packet that has arrived, as `rx_packet` does from the packet counter. -/
inductive Step : Rx → Event → Rx → Prop
  | arrive {s : Rx} (p : Packet) (hfree : s.rdh ≠ s.rdt) : Step s (.arrive p) (s.store p)
  | moveTail {s : Rx} (hidle : s.reading = none) (hlt : s.inputs.length < s.received.length) :
    Step s .moveTail s.moveTail
  | input {s : Rx} {tail cur : ℕ} (hr : s.reading = some (tail, cur)) :
    Step s .input (s.input tail cur)

/-- The packets that arrive. -/
def arrivals : List Event → List Packet
  | [] => []
  | .arrive p :: es => p :: arrivals es
  | .moveTail :: es => arrivals es
  | .input :: es => arrivals es

/-- The `k`-th call passes the buffer of the `k`-th packet, which has the bytes of that packet,
together with the length of that packet. -/
def Correct (s : Rx) : Prop :=
  ∀ k i, s.inputs[k]? = some i → ∃ p, s.received[k]? = some p ∧
    i.buf = k % descNr * iobufSize ∧ HasBytes i.memory (k % descNr) p ∧ i.len = p.bytes.length

/-- The lengths that the descriptors get, one after the other, from that at the tail on: the one
that was there at first and those of the packets. -/
def lengths (d : ℕ) (ps : List Packet) : List ℕ := d :: ps.map (·.bytes.length)

theorem length_lengths {d : ℕ} {ps : List Packet} : (lengths d ps).length = ps.length + 1 := by
  rw [lengths, List.length_cons, List.length_map]

theorem lengths_append {d : ℕ} {ps : List Packet} {p : Packet} :
    lengths d (ps ++ [p]) = lengths d ps ++ [p.bytes.length] := by
  rw [lengths, List.map_append]
  rfl

/-- The calls of `e1000_read` that have moved the tail. -/
def moved (s : Rx) : ℕ := s.inputs.length + if s.reading.isSome then 1 else 0

/-- What the `k`-th call passes: the buffer of the `k`-th packet, but the length of the packet
before, or that of a packet that came 256 later. -/
def Passed (d : ℕ) (ps : List Packet) (k : ℕ) (i : Input) : Prop :=
  (∃ p, ps[k]? = some p ∧ i.buf = k % descNr * iobufSize ∧ HasBytes i.memory (k % descNr) p) ∧
    ((lengths d ps)[k]? = some i.len ∨ (lengths d ps)[k + descNr]? = some i.len)

/-- A further packet. -/
theorem Passed.append {d k : ℕ} {ps : List Packet} {i : Input} (h : Passed d ps k i) (p : Packet) :
    Passed d (ps ++ [p]) k i := by
  obtain ⟨⟨q, hq, hbuf⟩, hlen⟩ := h
  refine ⟨⟨q, ?_, hbuf⟩, ?_⟩
  · exact getElem?_append_of_eq_some hq _
  · rw [lengths_append]
    exact hlen.imp (getElem?_append_of_eq_some · _) (getElem?_append_of_eq_some · _)

/-- The registers and the ring after any number of events.  `d` is the length in the last descriptor
at the start. -/
structure Inv (d : ℕ) (s : Rx) : Prop where
  buffer : ∀ j < descNr, (s.desc j).buffer = j * iobufSize
  rdh : s.rdh = s.received.length % descNr
  rdt : s.rdt = (s.moved + (descNr - 1)) % descNr
  reading : ∀ tail cur, s.reading = some (tail, cur) →
    tail = (s.inputs.length + (descNr - 1)) % descNr ∧ cur = s.inputs.length % descNr
  moved_le : s.moved ≤ s.received.length
  received_le : s.received.length ≤ s.moved + (descNr - 1)
  packets : InSlots descNr descNr (HasBytes s.buf) s.received
  lengths : InSlots descNr descNr (fun j l => (s.desc ((j + (descNr - 1)) % descNr)).length = l)
    (lengths d s.received)
  inputs : ∀ k i, s.inputs[k]? = some i → Passed d s.received k i

section Invariant

variable {d : ℕ} {s t : Rx}

/-- The invariant holds at the start. -/
theorem Inv.init (desc : ℕ → RxDesc) (buf : Bytes) :
    Inv (desc (descNr - 1)).length (e1000InitBuf desc buf) where
  buffer j hj := by simp only [e1000InitBuf, if_pos hj]
  rdh := rfl
  rdt := rfl
  reading tail cur h := by cases h
  moved_le := le_rfl
  received_le := Nat.zero_le _
  packets := InSlots.nil
  lengths := by
    intro k l hk _
    obtain ⟨rfl, rfl⟩ : k = 0 ∧ (desc (descNr - 1)).length = l := by
      rcases k with _ | k
      · exact ⟨rfl, Option.some.inj hk⟩
      · simp [e1000InitBuf, Rx.lengths] at hk
    rfl
  inputs k i h := by simp [e1000InitBuf] at h

/-- A packet that arrives spoils at most the slot of the packet 256 earlier. -/
theorem Inv.store (hs : Inv d s) {p : Packet} (hfree : s.rdh ≠ s.rdt) : Inv d (s.store p) := by
  have hrdh := hs.rdh
  have hrdt := hs.rdt
  have hle := hs.received_le
  have hbuf := hs.buffer s.rdh (hrdh ▸ Nat.mod_lt _ (by decide))
  refine ⟨fun j hj => ?_, ?_, hrdt, hs.reading, ?_, ?_, ?_, ?_, fun k i hk => ?_⟩
  · dsimp only [Rx.store]
    rw [Function.update_apply]
    split
    · rename_i hj'
      rw [hbuf, hj']
    · exact hs.buffer j hj
  · dsimp only [Rx.store]
    rw [hrdh, List.length_append, List.length_singleton, Nat.mod_add_mod]
  · exact hs.moved_le.trans (by simp [Rx.store])
  · -- the head is behind the tail
    show (s.received ++ [p]).length ≤ s.moved + (descNr - 1)
    rw [List.length_append, List.length_singleton]
    unfold descNr at *
    omega
  · refine ((hs.packets.mono (Nat.sub_le _ 1)).write (by decide) fun j _ hne q hq => ?_).append ?_
    · rw [← hrdh] at hne
      dsimp only [Rx.store]
      rw [hbuf]
      have hfits : 0 + p.bytes.length ≤ iobufSize := by rw [Nat.zero_add]; exact p.fits
      simpa only [Nat.add_zero] using hq.store 0 hne hfits
    · dsimp only [Rx.store]
      rw [hbuf, ← hrdh]
      exact HasBytes.new _ _ _
  · dsimp only [Rx.store]
    rw [lengths_append]
    refine ((hs.lengths.mono (Nat.sub_le _ 1)).write (by decide) fun j hj hne l hl => ?_).append ?_
    · rw [Function.update_of_ne, hl]
      rw [length_lengths] at hne
      unfold descNr at *
      omega
    · rw [length_lengths, Function.update_apply, if_pos]
      unfold descNr at *
      omega
  · exact (hs.inputs k i hk).append p

/-- Moving the tail. -/
theorem Inv.moveTail (hs : Inv d s) (hidle : s.reading = none)
    (hlt : s.inputs.length < s.received.length) : Inv d s.moveTail := by
  have hmoved : s.moved = s.inputs.length := by simp [moved, hidle]
  have hrdt := hs.rdt
  have hle := hs.received_le
  rw [hmoved] at hrdt hle
  have hcur : (s.rdt + 1) % descNr = s.inputs.length % descNr := by
    unfold descNr at *
    omega
  refine ⟨hs.buffer, hs.rdh, ?_, fun tail cur h => ?_, hlt, ?_, hs.packets, hs.lengths, hs.inputs⟩
  · show (s.rdt + 1) % descNr = (s.inputs.length + 1 + (descNr - 1)) % descNr
    unfold descNr at *
    omega
  · obtain ⟨rfl, rfl⟩ := Prod.mk.inj (Option.some.inj h)
    exact ⟨hrdt, hcur⟩
  · show s.received.length ≤ s.inputs.length + 1 + (descNr - 1)
    omega

/-- The length that is passed: that of the packet before, unless the card has gone round the
ring. -/
theorem Inv.length_tail (hs : Inv d s) (hr : s.reading.isSome) :
    (s.received.length < s.inputs.length + descNr →
      (Rx.lengths d s.received)[s.inputs.length]? =
        some (s.desc ((s.inputs.length + (descNr - 1)) % descNr)).length) ∧
    (s.inputs.length + descNr ≤ s.received.length →
      (Rx.lengths d s.received)[s.inputs.length + descNr]? =
        some (s.desc ((s.inputs.length + (descNr - 1)) % descNr)).length) := by
  have hmoved : s.moved = s.inputs.length + 1 := by simp [moved, hr]
  have hle := hs.moved_le
  have hge := hs.received_le
  rw [hmoved] at hle hge
  have hslot (k : ℕ) (hk : k < (Rx.lengths d s.received).length)
      (hwin : (Rx.lengths d s.received).length ≤ k + descNr)
      (hmod : (k % descNr + (descNr - 1)) % descNr = (s.inputs.length + (descNr - 1)) % descNr) :
      (Rx.lengths d s.received)[k]? =
        some (s.desc ((s.inputs.length + (descNr - 1)) % descNr)).length := by
    have h := hs.lengths k _ (List.getElem?_eq_getElem hk) hwin
    dsimp only at h
    rw [hmod] at h
    rw [List.getElem?_eq_getElem hk, h]
  rw [length_lengths] at hslot
  unfold descNr at *
  refine ⟨fun h => hslot _ (by omega) (by omega) (by omega),
    fun h => hslot _ (by omega) (by omega) (by omega)⟩

/-- The call of `lwip_input`. -/
theorem Inv.input (hs : Inv d s) {tail cur : ℕ} (hr : s.reading = some (tail, cur)) :
    Inv d (s.input tail cur) := by
  have hmoved : s.moved = s.inputs.length + 1 := by simp [moved, hr]
  have hle := hs.moved_le
  have hge := hs.received_le
  have hrdt := hs.rdt
  rw [hmoved] at hle hge hrdt
  obtain ⟨rfl, rfl⟩ := hs.reading tail cur hr
  refine ⟨hs.buffer, hs.rdh, ?_, fun tail cur h => ?_, ?_, ?_, hs.packets, hs.lengths,
    fun k i hk => ?_⟩
  · simpa [moved, Rx.input] using hrdt
  · cases h
  · simpa [moved, Rx.input] using hle
  · simpa [moved, Rx.input] using hge
  · rcases getElem?_snoc hk with hk | ⟨rfl, rfl⟩
    · exact hs.inputs k i hk
    · have hk' : s.inputs.length < s.received.length := hle
      obtain ⟨hnear, hfar⟩ := hs.length_tail (by rw [hr]; rfl)
      refine ⟨⟨s.received[s.inputs.length], List.getElem?_eq_getElem hk', rfl, ?_⟩, ?_⟩
      · exact hs.packets _ _ (List.getElem?_eq_getElem hk') (by unfold descNr at *; omega)
      · exact (Nat.lt_or_ge s.received.length (s.inputs.length + descNr)).imp hnear hfar

/-- Every step keeps the invariant. -/
theorem Inv.step {e : Event} (h : Step s e t) (hs : Inv d s) : Inv d t := by
  cases h with
  | arrive p hfree => exact hs.store hfree
  | moveTail hidle hlt => exact hs.moveTail hidle hlt
  | input hr => exact hs.input hr

end Invariant

section Runs

variable {d : ℕ} {s t : Rx} {es : List Event} {ps : List Packet}

/-- What arrives is received in order. -/
theorem received_of_run (h : Run Step s es t) : t.received = s.received ++ arrivals es := by
  induction h with
  | nil => exact (List.append_nil _).symm
  | cons hstep _ ih =>
    rw [ih]
    cases hstep with
    | arrive p _ => exact List.append_assoc _ _ _
    | moveTail _ _ => rfl
    | input _ => rfl

/-- What the calls pass, in every interleaving. -/
theorem passed_of_run {desc : ℕ → RxDesc} {buf : Bytes} (h : Run Step (e1000InitBuf desc buf) es t)
    {k : ℕ}
    {i : Input} (hk : t.inputs[k]? = some i) : Passed (desc (descNr - 1)).length t.received k i :=
  (h.invariant (fun _ _ _ hstep hs => hs.step hstep) (Inv.init desc buf)).inputs k i hk

/-- Each packet is read as soon as it has arrived. -/
def prompt (ps : List Packet) : List Event := ps.flatMap fun p => [.arrive p, .moveTail, .input]

theorem arrivals_prompt : arrivals (prompt ps) = ps := by
  induction ps with
  | nil => rfl
  | cons p ps ih => exact congrArg (p :: ·) ih

/-- All packets have been read, each with the length of the one before. -/
structure Late (d : ℕ) (s : Rx) : Prop where
  inv : Inv d s
  idle : s.reading = none
  done : s.inputs.length = s.received.length
  late : ∀ (k : ℕ) (i : Input), s.inputs[k]? = some i → (lengths d s.received)[k]? = some i.len

theorem Late.init (desc : ℕ → RxDesc) (buf : Bytes) :
    Late (desc (descNr - 1)).length (e1000InitBuf desc buf) :=
  ⟨Inv.init desc buf, rfl, rfl, fun k i h => by simp [e1000InitBuf] at h⟩

/-- One more packet, read at once. -/
theorem Late.round (hs : Late d s) (p : Packet) :
    ∃ t, Run Step s [.arrive p, .moveTail, .input] t ∧ Late d t := by
  have hmoved : s.moved = s.received.length := by simp [moved, hs.idle, hs.done]
  have hrdh := hs.inv.rdh
  have hrdt := hs.inv.rdt
  rw [hmoved] at hrdt
  have hfree : s.rdh ≠ s.rdt := by
    unfold descNr at *
    omega
  have hlt : (s.store p).inputs.length < (s.store p).received.length := by
    simp [store, hs.done]
  have h₂ : Inv d (s.store p).moveTail := (hs.inv.store hfree).moveTail hs.idle hlt
  refine ⟨_, .cons (.arrive p hfree) (.cons (.moveTail hs.idle hlt) (.cons (.input rfl) (.nil _))),
    h₂.input rfl, rfl, ?_, fun k i hk => ?_⟩
  · simp [input, moveTail, store, hs.done]
  · rcases getElem?_snoc hk with hk | ⟨rfl, rfl⟩
    · dsimp only [input, moveTail, store]
      rw [lengths_append]
      exact getElem?_append_of_eq_some (hs.late k i hk) _
    · -- the card is not once round the ring
      have hnear := (h₂.length_tail rfl).1 (by simp [moveTail, store, hs.done])
      rwa [← (h₂.reading _ _ rfl).1] at hnear

/-- A prompt driver is always late by one. -/
theorem Late.prompt (hs : Late d s) (ps : List Packet) :
    ∃ t, Run Step s (prompt ps) t ∧ Late d t := by
  induction ps generalizing s with
  | nil => exact ⟨s, .nil s, hs⟩
  | cons p ps ih =>
    obtain ⟨u, hround, hu⟩ := hs.round p
    obtain ⟨t, hrun, ht⟩ := ih hu
    exact ⟨t, hround.append hrun, ht⟩

/-- If each packet is read at once with the right length, all lengths are that of the descriptor at
the tail in the beginning. -/
theorem Late.lengths_eq (ht : Late d t) (hc : t.Correct) :
    ∀ (k : ℕ) (p : Packet), t.received[k]? = some p → p.bytes.length = d := by
  intro k
  induction k with
  | zero =>
    intro p hp
    have hlt : 0 < t.inputs.length := ht.done ▸ (List.getElem?_eq_some_iff.mp hp).1
    obtain ⟨q, hq, -, -, hlen⟩ := hc 0 _ (List.getElem?_eq_getElem hlt)
    have hlate := ht.late 0 _ (List.getElem?_eq_getElem hlt)
    rw [hp] at hq
    rw [Option.some.inj hq, ← hlen]
    exact (Option.some.inj hlate).symm
  | succ k ih =>
    intro p hp
    have hlt : k + 1 < t.inputs.length := ht.done ▸ (List.getElem?_eq_some_iff.mp hp).1
    obtain ⟨q, hq, -, -, hlen⟩ := hc (k + 1) _ (List.getElem?_eq_getElem hlt)
    have hlate := ht.late (k + 1) _ (List.getElem?_eq_getElem hlt)
    -- the length passed is that of the packet `k`
    obtain ⟨r, hr, hrlen⟩ : ∃ r, t.received[k]? = some r ∧
        r.bytes.length = (t.inputs[k + 1]).len := by
      simpa [lengths] using hlate
    rw [hp] at hq
    rw [Option.some.inj hq, ← hlen, ← hrlen]
    exact ih r hr

/-- For a sequence of packets, all interleavings pass every packet with its own length exactly if
all packets have the length that the last descriptor has in the beginning. -/
theorem correct_iff (desc : ℕ → RxDesc) (buf : Bytes) (ps : List Packet) :
    (∀ es t, arrivals es = ps → Run Step (e1000InitBuf desc buf) es t → t.Correct) ↔
      ∀ p ∈ ps, p.bytes.length = (desc (descNr - 1)).length := by
  constructor
  · intro h p hp
    obtain ⟨t, hrun, ht⟩ := (Late.init desc buf).prompt ps
    have hreceived : t.received = ps := by
      rw [received_of_run hrun, arrivals_prompt]
      rfl
    obtain ⟨k, hk⟩ := List.mem_iff_getElem?.mp (hreceived ▸ hp)
    exact ht.lengths_eq (h _ t arrivals_prompt hrun) k p hk
  · intro h es t hes hrun k i hk
    have hreceived : t.received = ps := by
      rw [received_of_run hrun, hes]
      rfl
    obtain ⟨⟨p, hp, hbuf, hbytes⟩, hlen⟩ := passed_of_run hrun hk
    have hd : ∀ n ∈ lengths (desc (descNr - 1)).length t.received,
        n = (desc (descNr - 1)).length := by
      rw [hreceived]
      simpa [lengths] using h
    refine ⟨p, hp, hbuf, hbytes, ?_⟩
    rw [h p (hreceived ▸ List.mem_of_getElem? hp)]
    exact hlen.elim (hd _ <| List.mem_of_getElem? ·) (hd _ <| List.mem_of_getElem? ·)

/-- The ring as it is when the driver starts, with all descriptors zero, and one packet of 60 bytes:
it is passed with the length zero. -/
theorem not_correct_one_packet : ∃ es t,
    Run Step (e1000InitBuf (fun _ => ⟨0, 0⟩) fun _ => 0) es t ∧
      arrivals es = [⟨List.replicate 60 0, by decide⟩] ∧ ¬ t.Correct := by
  obtain ⟨t, hrun, ht⟩ := (Late.init (fun _ => ⟨0, 0⟩) fun _ => 0).prompt
    [⟨List.replicate 60 0, by decide⟩]
  refine ⟨_, t, hrun, arrivals_prompt, fun hc => ?_⟩
  have hreceived := received_of_run hrun
  rw [arrivals_prompt] at hreceived
  have := ht.lengths_eq hc 0 _ (by rw [hreceived]; rfl)
  simp at this

end Runs

end Rx

/-! ## Sending -/

/-- `struct e1000_tx_desc`, with the fields that are used. -/
structure TxDesc where
  buffer : ℕ
  length : ℕ
  command : ℕ
  status : ℕ

/-- `E1000_TX_CMD_EOP | E1000_TX_CMD_FCS | E1000_TX_CMD_RS` -/
abbrev txCommand : ℕ := 1 ||| 2 ||| 8

/-- `tx_desc` and `tx_buf`. -/
structure TxRing where
  desc : ℕ → TxDesc
  buf : Bytes

/-- An assignment of `e1000_write`: a byte of `memcpy` or a field of the descriptor. -/
inductive Store
  | byte (i : ℕ) (b : UInt8)
  | status
  | length (n : ℕ)
  | command

namespace TxRing

/-- The assignment, for the descriptor `tail`. -/
def put (tail : ℕ) (r : TxRing) : Store → TxRing
  | .byte i b => { r with buf := Function.update r.buf (tail * iobufSize + i) b }
  | .status => { r with desc := Function.update r.desc tail { r.desc tail with status := 0 } }
  | .length n =>
    { r with desc := Function.update r.desc tail { r.desc tail with length := n % 2 ^ 16 } }
  | .command =>
    { r with desc := Function.update r.desc tail { r.desc tail with command := txCommand } }

/-- The assignments of `e1000_write` before that to `TDT`. -/
def stores (f : Packet) : List Store :=
  f.bytes.mapIdx .byte ++ [.status, .length f.bytes.length, .command]

/-- The descriptor and the buffer `j` have a frame. -/
structure HasFrame (r : TxRing) (j : ℕ) (f : Packet) : Prop where
  length : (r.desc j).length = f.bytes.length
  command : (r.desc j).command = txCommand
  bytes : HasBytes r.buf j f

/-- The assignments stay within the buffer of the descriptor. -/
def Within : Store → Prop
  | .byte i _ => i < iobufSize
  | _ => True

theorem within_stores (f : Packet) : ∀ x ∈ stores f, Within x := by
  intro x hx
  rcases List.mem_append.mp hx with h | h
  · obtain ⟨i, hi, rfl⟩ := List.mem_mapIdx.mp h
    exact hi.trans_le f.fits
  · obtain rfl | rfl | rfl : x = .status ∨ x = .length f.bytes.length ∨ x = .command := by
      simpa using h
    all_goals trivial

variable {r : TxRing} {tail j : ℕ} {f : Packet}

/-- Stores leave the addresses of buffers alone. -/
theorem buffer_put (x : Store) (j : ℕ) : ((r.put tail x).desc j).buffer = (r.desc j).buffer := by
  have hupdate (d : TxDesc) (hd : d.buffer = (r.desc tail).buffer) :
      (Function.update r.desc tail d j).buffer = (r.desc j).buffer := by
    rw [Function.update_apply]
    split
    · rename_i hj
      rw [hd, hj]
    · rfl
  cases x with
  | byte i b => rfl
  | status => exact hupdate _ rfl
  | length n => exact hupdate _ rfl
  | command => exact hupdate _ rfl

/-- The other descriptors keep their frames. -/
theorem HasFrame.update (h : r.HasFrame j f) (hj : j ≠ tail) (d : TxDesc) :
    HasFrame { r with desc := Function.update r.desc tail d } j f := by
  refine ⟨?_, ?_, h.bytes⟩ <;> dsimp only <;> rw [Function.update_of_ne hj]
  exacts [h.length, h.command]

/-- Filling one descriptor leaves the frames of the others. -/
theorem HasFrame.put {x : Store} (h : r.HasFrame j f) (hj : j ≠ tail) (hx : Within x) :
    (r.put tail x).HasFrame j f := by
  cases x with
  | byte i b =>
    refine ⟨h.length, h.command, ?_⟩
    have hb := h.bytes.store (l := [b]) i hj hx
    rwa [← Bytes.store_update, Bytes.store_nil] at hb
  | status => exact h.update hj _
  | length n => exact h.update hj _
  | command => exact h.update hj _

/-- `memcpy` as a whole, from the byte `k` on. -/
theorem foldl_put_bytes (l : List UInt8) (k : ℕ) :
    (l.mapIdx fun i b => Store.byte (k + i) b).foldl (put tail) r =
      { r with buf := r.buf.store (tail * iobufSize + k) l } := by
  induction l generalizing r k with
  | nil => rw [Bytes.store_nil]; rfl
  | cons b l ih =>
    have hshift : (fun i b => Store.byte (k + (i + 1)) b) =
        fun i b => Store.byte (k + 1 + i) b := by
      funext i b
      rw [Nat.add_right_comm, Nat.add_assoc]
    rw [List.mapIdx_cons, List.foldl_cons, hshift, ih, ← Bytes.store_update, Nat.add_assoc]
    rfl

/-- After its assignments the descriptor has the frame. -/
theorem hasFrame_foldl_stores : ((stores f).foldl (put tail) r).HasFrame tail f := by
  have hcopy : (f.bytes.mapIdx Store.byte).foldl (put tail) r =
      { r with buf := r.buf.store (tail * iobufSize) f.bytes } := by
    simpa only [Nat.zero_add, Nat.add_zero] using foldl_put_bytes f.bytes 0
  have hlt : f.bytes.length < 2 ^ 16 := f.fits.trans_lt (by decide)
  rw [stores, List.foldl_append, hcopy]
  refine ⟨?_, ?_, HasBytes.new _ _ _⟩
  · simpa [put] using hlt
  · simp [put]

end TxRing

/-- A call of `e1000_write`: the descriptor, the frame and the assignments that are left before that
to `TDT`. -/
structure Writing where
  tail : ℕ
  frame : Packet
  stores : List Store

/-- The transmit ring, its registers and the call of `e1000_write` that is going on.  The frames
whose call is complete and the bytes the card has sent for each descriptor are remembered. -/
structure Tx where
  ring : TxRing
  tdh : ℕ
  tdt : ℕ
  writing : Option Writing
  written : List Packet
  sent : List (List UInt8)

namespace Tx

open TxRing

/-- The transmit half of `e1000_init_buf`. -/
def e1000InitBuf (desc : ℕ → TxDesc) (buf : Bytes) : Tx where
  ring :=
    { desc := fun j => if j < descNr then { desc j with buffer := j * iobufSize } else desc j
      buf := buf }
  tdh := 0
  tdt := 0
  writing := none
  written := []
  sent := []

/-- What happens: the parts of `e1000_write`, and the card consumes a descriptor. -/
inductive Event
  | call (f : Packet)
  | store
  | publish
  | consume

/-- The tail is read. -/
def call (s : Tx) (f : Packet) : Tx := { s with writing := some ⟨s.tdt, f, stores f⟩ }

/-- The next assignment. -/
def store (s : Tx) (tail : ℕ) (f : Packet) (x : Store) (xs : List Store) : Tx :=
  { s with ring := s.ring.put tail x, writing := some ⟨tail, f, xs⟩ }

/-- The assignment to `TDT`. -/
def publish (s : Tx) (tail : ℕ) (f : Packet) : Tx :=
  { s with tdt := (tail + 1) % descNr, writing := none, written := s.written ++ [f] }

/-- The card sends the bytes of the descriptor at its head. -/
def consume (s : Tx) : Tx :=
  { s with
    tdh := (s.tdh + 1) % descNr
    sent := s.sent ++ [s.ring.buf.load (s.ring.desc s.tdh).buffer (s.ring.desc s.tdh).length] }

/-- The steps.  The card consumes up to but excluding `TDT`, at any time. -/
inductive Step : Tx → Event → Tx → Prop
  | call {s : Tx} (f : Packet) (hidle : s.writing = none) : Step s (.call f) (s.call f)
  | store {s : Tx} {tail : ℕ} {f : Packet} {x : Store} {xs : List Store}
    (hw : s.writing = some ⟨tail, f, x :: xs⟩) : Step s .store (s.store tail f x xs)
  | publish {s : Tx} {tail : ℕ} {f : Packet} (hw : s.writing = some ⟨tail, f, []⟩) :
    Step s .publish (s.publish tail f)
  | consume {s : Tx} (hne : s.tdh ≠ s.tdt) : Step s .consume s.consume

/-- The frames are sent in order, each once and with its own bytes; those that are not sent yet are
intact; and while there are such frames the ring does not look empty. -/
structure Sound (s : Tx) : Prop where
  inOrder : s.sent = (s.written.map (·.bytes)).take s.sent.length
  intact : ∀ (k : ℕ) (f : Packet), s.written[k]? = some f → s.sent.length ≤ k →
    s.ring.HasFrame (k % descNr) f
  visible : s.sent.length < s.written.length → s.tdh ≠ s.tdt

/-- A call finds a free descriptor besides the one it fills. -/
def Free (s : Tx) : Event → Prop
  | .call _ => (s.tdt + 1) % descNr ≠ s.tdh
  | _ => True

/-- The calls of `e1000_write` so far. -/
def calls (s : Tx) : ℕ := s.written.length + if s.writing.isSome then 1 else 0

/-- The registers and the ring after any number of events, if every call finds a free descriptor. -/
structure Inv (s : Tx) : Prop where
  buffer : ∀ j < descNr, (s.ring.desc j).buffer = j * iobufSize
  tdh : s.tdh = s.sent.length % descNr
  tdt : s.tdt = s.written.length % descNr
  inOrder : s.sent = (s.written.map (·.bytes)).take s.sent.length
  calls_le : s.calls ≤ s.sent.length + (descNr - 1)
  frames : InSlots descNr (descNr - 1) s.ring.HasFrame s.written
  tail : ∀ w, s.writing = some w → w.tail = s.tdt
  within : ∀ w, s.writing = some w → ∀ x ∈ w.stores, Within x
  filled : ∀ w, s.writing = some w → (w.stores.foldl (put w.tail) s.ring).HasFrame w.tail w.frame

section Invariant

variable {s t : Tx} {f : Packet} {es : List Event}

/-- The invariant holds at the start. -/
theorem Inv.init (desc : ℕ → TxDesc) (buf : Bytes) : Inv (e1000InitBuf desc buf) where
  buffer j hj := by simp only [e1000InitBuf, if_pos hj]
  tdh := rfl
  tdt := rfl
  inOrder := rfl
  calls_le := Nat.zero_le _
  frames := InSlots.nil
  tail w h := by cases h
  within w h := by cases h
  filled w h := by cases h

/-- Only what was written is sent. -/
theorem Inv.sent_le (hs : Inv s) : s.sent.length ≤ s.written.length := by
  have h := congrArg List.length hs.inOrder
  rw [List.length_take, List.length_map] at h
  omega

/-- The ring is never full. -/
theorem Inv.written_le (hs : Inv s) : s.written.length ≤ s.sent.length + (descNr - 1) :=
  (Nat.le_add_right _ _).trans hs.calls_le

/-- A call with a free descriptor. -/
theorem Inv.call (hs : Inv s) (hfree : (s.tdt + 1) % descNr ≠ s.tdh) : Inv (s.call f) := by
  refine ⟨hs.buffer, hs.tdh, hs.tdt, hs.inOrder, ?_, hs.frames, fun w h => ?_, fun w h => ?_,
    fun w h => ?_⟩
  · show s.written.length + 1 ≤ s.sent.length + (descNr - 1)
    have hle := hs.written_le
    have hge := hs.sent_le
    have htdh := hs.tdh
    have htdt := hs.tdt
    unfold descNr at *
    omega
  all_goals obtain rfl := Option.some.inj h
  · rfl
  · exact within_stores f
  · exact hasFrame_foldl_stores

/-- One store of a frame. -/
theorem Inv.store (hs : Inv s) {tail : ℕ} {x : Store} {xs : List Store}
    (hw : s.writing = some ⟨tail, f, x :: xs⟩) : Inv (s.store tail f x xs) := by
  have htail : tail = s.written.length % descNr := (hs.tail _ hw).trans hs.tdt
  have hx : Within x := hs.within _ hw x (List.mem_cons_self ..)
  have hcalls : (s.store tail f x xs).calls = s.calls := by simp [calls, hw, Tx.store]
  refine ⟨fun j hj => (buffer_put x j).trans (hs.buffer j hj), hs.tdh, hs.tdt, hs.inOrder,
    hcalls ▸ hs.calls_le, ?_, fun w h => ?_, fun w h => ?_, fun w h => ?_⟩
  · -- the descriptor that is filled is not that of a pending frame
    exact hs.frames.write (by decide) fun j _ hne g hg => hg.put (htail ▸ hne) hx
  all_goals obtain rfl := Option.some.inj h
  · exact htail.trans hs.tdt.symm
  · exact fun y hy => hs.within _ hw y (List.mem_cons_of_mem x hy)
  · exact hs.filled _ hw

/-- The tail moves on. -/
theorem Inv.publish (hs : Inv s) {tail : ℕ} (hw : s.writing = some ⟨tail, f, []⟩) :
    Inv (s.publish tail f) := by
  have htail : tail = s.written.length % descNr := (hs.tail _ hw).trans hs.tdt
  have hcalls : (s.publish tail f).calls = s.calls := by simp [calls, hw, Tx.publish]
  refine ⟨hs.buffer, hs.tdh, ?_, ?_, hcalls ▸ hs.calls_le, ?_, fun w h => ?_, fun w h => ?_,
    fun w h => ?_⟩
  · dsimp only [Tx.publish]
    rw [htail, List.length_append, List.length_singleton, Nat.mod_add_mod]
  · dsimp only [Tx.publish]
    rw [List.map_append, List.take_append_of_le_length (by rw [List.length_map]; exact hs.sent_le)]
    exact hs.inOrder
  · refine (hs.frames.append ?_).mono (Nat.sub_le _ 1)
    exact htail ▸ hs.filled _ hw
  all_goals cases h

/-- The card sends the first pending frame. -/
theorem Inv.consume (hs : Inv s) (hne : s.tdh ≠ s.tdt) : Inv s.consume := by
  have hlt : s.sent.length < s.written.length := by
    refine lt_of_le_of_ne hs.sent_le fun h => hne ?_
    rw [hs.tdh, hs.tdt, h]
  have hframe := hs.frames s.sent.length _ (List.getElem?_eq_getElem hlt) hs.written_le
  have hbuf := hs.buffer s.tdh (hs.tdh ▸ Nat.mod_lt _ (by decide))
  have hbytes : s.ring.buf.load (s.ring.desc s.tdh).buffer (s.ring.desc s.tdh).length =
      s.written[s.sent.length].bytes := by
    rw [hbuf, hs.tdh, hframe.length]
    exact hframe.bytes
  refine ⟨hs.buffer, ?_, hs.tdt, ?_, ?_, hs.frames, hs.tail, hs.within, hs.filled⟩
  · dsimp only [Tx.consume]
    rw [hs.tdh, List.length_append, List.length_singleton, Nat.mod_add_mod]
  · dsimp only [Tx.consume]
    rw [hbytes, List.length_append, List.length_singleton, List.take_add_one, ← hs.inOrder,
      List.getElem?_map, List.getElem?_eq_getElem hlt]
    rfl
  · refine hs.calls_le.trans ?_
    simp [Tx.consume]

/-- Every guarded step keeps the invariant. -/
theorem Inv.step {e : Event} (h : guarded Step Free s e t) (hs : Inv s) : Inv t := by
  obtain ⟨hfree, hstep⟩ := h
  cases hstep with
  | call f hidle => exact hs.call hfree
  | store hw => exact hs.store hw
  | publish hw => exact hs.publish hw
  | consume hne => exact hs.consume hne

/-- The invariant says what is sound. -/
theorem Inv.sound (hs : Inv s) : s.Sound where
  inOrder := hs.inOrder
  intact k f hk hle := hs.frames k f hk (by have := hs.written_le; omega)
  visible hlt := by
    have hle := hs.written_le
    rw [hs.tdh, hs.tdt]
    unfold descNr at *
    omega

/-- If every call finds a free descriptor besides the one it fills, the frames are sent in order,
each once and with its own bytes, and none is overwritten before. -/
theorem sound_of_free_run {desc : ℕ → TxDesc} {buf : Bytes}
    (h : Run (guarded Step Free) (e1000InitBuf desc buf) es t) : t.Sound :=
  (h.invariant (fun _ _ _ hstep hs => hs.step hstep) (Inv.init desc buf)).sound

/-- A frame of two bytes goes out. -/
theorem sound_two_bytes : ∃ es t,
    Run (guarded Step Free) (e1000InitBuf (fun _ => ⟨0, 0, 0, 0⟩) fun _ => 0) es t ∧
      t.sent = [[1, 2]] ∧ t.Sound := by
  have hrun : ∃ t, Run (guarded Step Free) (e1000InitBuf (fun _ => ⟨0, 0, 0, 0⟩) fun _ => 0)
      [.call ⟨[1, 2], by decide⟩, .store, .store, .store, .store, .store, .publish, .consume] t ∧
      t.sent = [[1, 2]] :=
    ⟨_, .cons ⟨(by decide : (0 + 1) % descNr ≠ 0), .call _ rfl⟩ <| .cons ⟨trivial, .store rfl⟩ <|
      .cons ⟨trivial, .store rfl⟩ <| .cons ⟨trivial, .store rfl⟩ <|
      .cons ⟨trivial, .store rfl⟩ <| .cons ⟨trivial, .store rfl⟩ <|
      .cons ⟨trivial, .publish rfl⟩ <| .cons ⟨trivial, .consume (by decide)⟩ (.nil _), by decide⟩
  obtain ⟨t, hrun, hsent⟩ := hrun
  exact ⟨_, t, hrun, hsent, sound_of_free_run hrun⟩

end Invariant

section Full

variable {s : Tx}

/-- The call that is going on comes to its end without the card. -/
theorem exists_publish {tail : ℕ} {f : Packet} {xs : List Store}
    (hw : s.writing = some ⟨tail, f, xs⟩) :
    ∃ es t, Run Step s es t ∧ t.writing = none ∧ t.tdt = (tail + 1) % descNr ∧ t.tdh = s.tdh ∧
      t.written.length = s.written.length + 1 ∧ t.sent = s.sent := by
  induction xs generalizing s with
  | nil =>
    refine ⟨_, _, .cons (.publish hw) (.nil _), rfl, rfl, rfl, ?_, rfl⟩
    simp [publish]
  | cons x xs ih =>
    obtain ⟨es, t, hrun, hidle, htdt, htdh, hwritten, hsent⟩ := ih (s := s.store tail f x xs) rfl
    exact ⟨_, t, .cons (.store hw) hrun, hidle, htdt, htdh, hwritten, hsent⟩

/-- `n` calls that the card does not notice. -/
theorem exists_calls (desc : ℕ → TxDesc) (buf : Bytes) (f : Packet) (n : ℕ) :
    ∃ es t, Run Step (e1000InitBuf desc buf) es t ∧ t.writing = none ∧
      t.tdt = n % descNr ∧ t.tdh = 0 ∧
      t.written.length = n ∧ t.sent = [] := by
  induction n with
  | zero => exact ⟨_, _, .nil _, rfl, rfl, rfl, rfl, rfl⟩
  | succ n ih =>
    obtain ⟨es, t, hrun, hidle, htdt, htdh, hwritten, hsent⟩ := ih
    obtain ⟨es', u, hrun', hidle', htdt', htdh', hwritten', hsent'⟩ :=
      exists_publish (s := t.call f) rfl
    refine ⟨_, u, hrun.append (.cons (.call f hidle) hrun'), hidle', ?_, htdh'.trans htdh, ?_,
      hsent'.trans hsent⟩
    · rw [htdt', htdt, Nat.mod_add_mod]
    · rw [hwritten']
      exact congrArg (· + 1) hwritten

/-- After 256 calls before the card has consumed anything, the ring looks empty. -/
theorem not_sound_full : ∃ es t,
    Run Step (e1000InitBuf (fun _ => ⟨0, 0, 0, 0⟩) fun _ => 0) es t ∧ t.written.length = 256 ∧
      t.sent = [] ∧ t.tdh = t.tdt ∧ ¬ t.Sound := by
  obtain ⟨es, t, hrun, -, htdt, htdh, hwritten, hsent⟩ :=
    exists_calls (fun _ => ⟨0, 0, 0, 0⟩) (fun _ => 0) ⟨[1, 2], by decide⟩ 256
  have heq : t.tdh = t.tdt := htdh.trans htdt.symm
  refine ⟨es, t, hrun, hwritten, hsent, heq, fun h => h.visible ?_ heq⟩
  rw [hwritten, hsent]
  decide

end Full

end Tx

end Savannah.E1000
