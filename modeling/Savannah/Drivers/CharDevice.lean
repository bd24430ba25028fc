import Savannah.Foundation.Bytes
import Savannah.Machine.Outcome

/-!
# Reading from a character device

`read_char` and `write_char` of `lib/fs.c` talk to a driver through the page of a channel.  The
client writes the number of bytes at the start of the field `data` and waits for the reply; the
driver looks for the mark that closes the channel, reads the number, and stores its bytes: the junk
driver (`drivers/junk/main.c`) behind the number, the keyboard driver (`drivers/keyboard/`) in its
place. `read_char` copies from the start of `data`, so that it returns the keys, but not the bytes
of the junk driver (`charRead_iff`).

The keyboard driver stores a key whenever one is pressed.  It waits for interrupts until enough keys
are there, sets `bufpos` back to 0, and only then turns the interrupts off.  A key that comes in
between is stored over the first key of the answer and counts for the next request, so that `bufpos`
is not 0 at its start.

Addresses are relative to `data`.
-/

namespace Savannah.CharDevice

open Foundation

/-- `CLOSE_CHANNEL` -/
abbrev closeMark : ℕ := 0x87654321

/-- `offsetof (struct channel, data)`; a `bool` is an enumeration, of the size of an `int`. -/
abbrev offsetofData : ℕ := 12

/-- `sizeof (struct read_char_rq)` -/
abbrev sizeofRequest : ℕ := 8

/-- The fields `result` and `data` of a channel. -/
structure Channel where
  result : ℤ
  data : Bytes

/-! ### The client -/

/-- An `int` that passes the check at the start of `read_char` and `write_char`, where it is
compared as a `size_t`. -/
def Accepts (count : ℤ) : Prop :=
  (-2 ^ 31 ≤ count ∧ count < 2 ^ 31) ∧ ¬ toSize count ≥ 4096 - offsetofData - sizeofRequest

/-- What `read_char` writes into the page. -/
def readRequest (count : ℤ) (data : Bytes) : Bytes :=
  data.store 0 (littleEndian sizeofRequest (toSize count))

/-- What `write_char` writes into the page, for the `count` bytes `buf`. -/
def writeRequest (count : ℤ) (buf : List UInt8) (data : Bytes) : Bytes :=
  (readRequest count data).store sizeofRequest buf

/-- What `read_char` copies to the buffer after the reply. -/
def readReply (cnl : Channel) : List UInt8 :=
  if cnl.result ≠ -1 then cnl.data.load 0 cnl.result.toNat else []

/-! ### The drivers -/

/-- The number at the start of the page, which is the field `count` of the request. -/
def reqCount (data : Bytes) : ℕ := number (data.load 0 sizeofRequest)

/-- The check of the drivers for the end of the channel. -/
def IsClose (data : Bytes) : Prop := reqCount data = closeMark

/-- The letter `f` that the junk driver stores. -/
abbrev junk : UInt8 := 0x66

/-- The loop of the junk driver, after `n` iterations. -/
def junkLoop (data : Bytes) : ℕ → Bytes
  | 0 => data
  | n + 1 => Function.update (junkLoop data n) (sizeofRequest + n) junk

/-- The junk driver's answer. -/
def junkAnswer (data : Bytes) : Channel := ⟨int32 (reqCount data), junkLoop data (reqCount data)⟩

/-- The keyboard's variable `bufpos`, and the page to which `buffer` points. -/
structure Keyboard where
  bufpos : ℕ
  data : Bytes

/-- `kbd_add_buf` -/
def kbdAddBuf (s : Keyboard) (key : UInt8) : Keyboard :=
  ⟨s.bufpos + 1, Function.update s.data s.bufpos key⟩

/-- `wait_for_completed_request`, with the keys that are stored between one check and the next; the
list ends when no more interrupts come.  The result is the keyboard, with the keys that were
stored. -/
def waitForCompletedRequest (count : ℕ) :
    List (List UInt8) → Keyboard → Option (Keyboard × List UInt8)
  | [], _ => none
  | keys :: rest, s =>
    let s := keys.foldl kbdAddBuf s
    if s.bufpos ≥ count then
      some ({ s with bufpos := 0 }, keys)
    else
      (waitForCompletedRequest count rest s).map fun (s, stored) => (s, keys ++ stored)

/-- The keyboard driver's answer and the keys that were stored for the request.  The keys `late`
come before the interrupts are turned off. -/
def keyboardAnswer (data : Bytes) (bufpos : ℕ) (keys : List (List UInt8)) (late : List UInt8) :
    Option (Channel × List UInt8) :=
  (waitForCompletedRequest (reqCount data) keys ⟨bufpos, data⟩).map fun (s, stored) =>
    (⟨int32 (reqCount data), (late.foldl kbdAddBuf s).data⟩, stored)

/-! ### The reads of a device -/

/-- A driver that answers reads.  For the keyboard the numbers of keys are given: those between the
checks, and those that come late. -/
inductive Driver where
  | junk
  | keyboard (bufpos : ℕ) (pressed : List ℕ) (late : ℕ)
  deriving DecidableEq, Repr

/-- The driver can answer the request in the page with `cnl`, storing the bytes `stored`. -/
def Driver.Answers (d : Driver) (data : Bytes) (cnl : Channel) (stored : List UInt8) : Prop :=
  match d with
  | .junk => cnl = junkAnswer data ∧ stored = List.replicate (reqCount data) CharDevice.junk
  | .keyboard bufpos pressed late => ∃ keys lateKeys, keys.map List.length = pressed ∧
      lateKeys.length = late ∧ keyboardAnswer data bufpos keys lateKeys = some (cnl, stored)

/-- For any page and any keys, `read_char` copies the bytes that the driver stored, as many as the
reply says; and neither a read nor a write is taken for the end of the channel. -/
structure CharRead (d : Driver) (count : ℤ) (page : Bytes) : Prop where
  copied : ∀ cnl stored, d.Answers (readRequest count page) cnl stored →
    readReply cnl = stored.take cnl.result.toNat
  read_open : ¬ IsClose (readRequest count page)
  write_open : ∀ buf : List UInt8, buf.length = count → ¬ IsClose (writeRequest count buf page)

/-! ### The request -/

section Request

variable {count : ℤ} {page : Bytes}

/-- Negative numbers are not accepted, since they are large as unsigned ones. -/
theorem Accepts.bounds (h : Accepts count) :
    0 ≤ count ∧ count < 4076 ∧ toSize count = count.toNat := by
  obtain ⟨⟨hlo, hhi⟩, hcheck⟩ := h
  have hlimit : 4096 - offsetofData - sizeofRequest = 4076 := rfl
  rw [hlimit] at hcheck
  unfold toSize at *
  omega

theorem reqCount_readRequest (h : Accepts count) (page : Bytes) :
    reqCount (readRequest count page) = count.toNat := by
  obtain ⟨h₀, h₁, hsize⟩ := h.bounds
  have hload : (readRequest count page).load 0 sizeofRequest =
      littleEndian sizeofRequest (toSize count) := Bytes.load_store
  rw [reqCount, hload, number_littleEndian, hsize]
  rw [hsize]
  norm_num
  omega

theorem reqCount_writeRequest (h : Accepts count) (buf : List UInt8) :
    reqCount (writeRequest count buf page) = count.toNat := by
  rw [← reqCount_readRequest h page, reqCount, reqCount, writeRequest,
    Bytes.load_store_of_disjoint (.inl (by norm_num))]

/-- The numbers that are accepted are smaller than the mark. -/
theorem not_isClose {data : Bytes} (h : Accepts count) (hdata : reqCount data = count.toNat) :
    ¬ IsClose data := by
  obtain ⟨h₀, h₁, -⟩ := h.bounds
  unfold IsClose closeMark
  omega

/-- The first bytes of the page hold the number. -/
theorem readRequest_apply {i : ℕ} (h : Accepts count) (page : Bytes) (hi : i < sizeofRequest) :
    readRequest count page i = UInt8.ofNat (count.toNat / 256 ^ i) := by
  rw [readRequest, Bytes.store, if_pos (Nat.zero_le i), Nat.sub_zero, List.getD_eq_getElem?_getD,
    getElem?_littleEndian hi, Option.getD_some, h.bounds.2.2]

/-- The reply says how many bytes there are. -/
theorem int32_count (h : Accepts count) : int32 count.toNat = count.toNat := by
  obtain ⟨h₀, h₁, -⟩ := h.bounds
  exact int32_of_lt (by omega)

end Request

/-! ### The keyboard -/

section Keyboard

variable {count : ℕ} {s s' : Keyboard} {stored : List UInt8}

/-- The keys are stored one after the other. -/
theorem foldl_kbdAddBuf (keys : List UInt8) :
    ∀ s : Keyboard, keys.foldl kbdAddBuf s =
    ⟨s.bufpos + keys.length, s.data.store s.bufpos keys⟩ := by
  induction keys with
  | nil =>
    intro s
    rw [Bytes.store_nil]
    rfl
  | cons key keys ih =>
    intro s
    rw [List.foldl_cons, ih, kbdAddBuf, Bytes.store_update, List.length_cons]
    congr 1
    dsimp only
    omega

/-- When a request is complete, the keys stand in the page from `bufpos` on, and there are
enough. -/
theorem wait_spec : ∀ (keys : List (List UInt8)) (s : Keyboard),
    waitForCompletedRequest count keys s = some (s', stored) →
      s'.bufpos = 0 ∧ s'.data = s.data.store s.bufpos stored ∧
      count ≤ s.bufpos + stored.length := by
  intro keys
  induction keys generalizing s' stored with
  | nil =>
    intro s h
    cases h
  | cons batch keys ih =>
    intro s h
    rw [waitForCompletedRequest, foldl_kbdAddBuf] at h
    dsimp only at h
    split_ifs at h with hdone
    · cases h
      exact ⟨rfl, rfl, hdone⟩
    · obtain ⟨⟨s₁, rest⟩, hrest, heq⟩ := Option.map_eq_some_iff.mp h
      cases heq
      obtain ⟨hpos, hdata, hcount⟩ := ih _ hrest
      refine ⟨hpos, ?_, ?_⟩
      · rw [hdata, Bytes.store_store]
      · dsimp only at hcount ⊢
        rw [List.length_append]
        omega

/-- Whether and when a request is completed depends on the numbers of keys only. -/
theorem wait_congr : ∀ (keys keys' : List (List UInt8)) (s₁ s₂ : Keyboard),
    keys.map List.length = keys'.map List.length → s₁.bufpos = s₂.bufpos →
      (waitForCompletedRequest count keys s₁).isSome →
      (waitForCompletedRequest count keys' s₂).isSome := by
  intro keys
  induction keys with
  | nil =>
    intro keys' s₁ s₂ _ _ h
    cases h
  | cons batch keys ih =>
    intro keys' s₁ s₂ hlen hpos h
    cases keys' with
    | nil => cases hlen
    | cons batch' keys' =>
      obtain ⟨hbatch, hkeys⟩ := List.cons.inj hlen
      rw [waitForCompletedRequest, foldl_kbdAddBuf] at h ⊢
      dsimp only at h ⊢
      rw [← hpos, ← hbatch]
      split_ifs at h ⊢ with hdone
      · rfl
      · rw [Option.isSome_map] at h ⊢
        refine ih _ _ _ hkeys ?_ h
        rfl

/-- All the keys that are stored are keys that were pressed. -/
theorem mem_of_mem_stored {key : UInt8} : ∀ (keys : List (List UInt8)) (s : Keyboard),
    waitForCompletedRequest count keys s = some (s', stored) → key ∈ stored →
      ∃ batch ∈ keys, key ∈ batch := by
  intro keys
  induction keys generalizing s' stored with
  | nil =>
    intro s h
    cases h
  | cons batch keys ih =>
    intro s h hkey
    rw [waitForCompletedRequest] at h
    dsimp only at h
    split_ifs at h with hdone
    · cases h
      exact ⟨batch, List.mem_cons_self, hkey⟩
    · obtain ⟨⟨s₁, rest⟩, hrest, heq⟩ := Option.map_eq_some_iff.mp h
      cases heq
      rcases List.mem_append.mp hkey with hkey | hkey
      · exact ⟨batch, List.mem_cons_self, hkey⟩
      · obtain ⟨batch', hbatch', hkey'⟩ := ih _ hrest hkey
        exact ⟨batch', List.mem_cons_of_mem _ hbatch', hkey'⟩

end Keyboard

/-! ### What the client gets -/

section Read

variable {count : ℤ} {page : Bytes}

/-- The bytes of the junk driver stand behind the number. -/
theorem junkLoop_apply {data : Bytes} {i : ℕ} (hi : i < sizeofRequest) (n : ℕ) :
    junkLoop data n i = data i := by
  induction n with
  | zero => rfl
  | succ n ih => rw [junkLoop, Function.update_of_ne (by omega), ih]

/-- A driver that answers says how many bytes were asked for. -/
theorem result_of_answers (h : Accepts count) {d : Driver} {cnl : Channel} {stored : List UInt8}
    (ha : d.Answers (readRequest count page) cnl stored) : cnl.result = count := by
  have hcount := reqCount_readRequest h page
  have hresult : int32 (reqCount (readRequest count page)) = count := by
    rw [hcount, int32_count h, Int.toNat_of_nonneg h.bounds.1]
  cases d with
  | junk =>
    obtain ⟨rfl, -⟩ := ha
    exact hresult
  | keyboard bufpos pressed late =>
    obtain ⟨keys, lateKeys, -, -, ha⟩ := ha
    obtain ⟨⟨s, rest⟩, -, heq⟩ := Option.map_eq_some_iff.mp ha
    cases heq
    exact hresult

/-- What `read_char` copies. -/
theorem readReply_of_answers (h : Accepts count) {d : Driver} {cnl : Channel} {stored : List UInt8}
    (ha : d.Answers (readRequest count page) cnl stored) :
    readReply cnl = cnl.data.load 0 count.toNat ∧ cnl.result.toNat = count.toNat := by
  have hresult := result_of_answers h ha
  have hneg : cnl.result ≠ -1 := by
    have := h.bounds.1
    omega
  rw [readReply, if_pos hneg, hresult]
  exact ⟨rfl, rfl⟩

/-- If the bytes that were stored are copied, they stand at the start of the page. -/
theorem getElem?_of_copied (h : Accepts count) {d : Driver} {cnl : Channel}
    {stored : List UInt8} (ha : d.Answers (readRequest count page) cnl stored)
    (hcopied : readReply cnl = stored.take cnl.result.toNat) :
    ∀ i < count.toNat, stored[i]? = some (cnl.data i) := by
  intro i hi
  obtain ⟨hload, hlen⟩ := readReply_of_answers h ha
  rw [hload, hlen] at hcopied
  have hget := congrArg (fun l : List UInt8 => l[i]?) hcopied
  rw [List.getElem?_take_of_lt hi] at hget
  rw [← hget, Bytes.load, List.getElem?_map, List.getElem?_range hi, Option.map_some, Nat.zero_add]

/-- The bytes of the junk driver are not what is copied: in their place stands the number, which has
no two bytes `f`. -/
theorem not_charRead_junk (h : Accepts count) (hpos : count ≠ 0) :
    ¬ CharRead .junk count page := by
  intro hread
  obtain ⟨h₀, h₁, -⟩ := h.bounds
  have hcount := reqCount_readRequest h page
  have hget := getElem?_of_copied (d := .junk) h ⟨rfl, rfl⟩ (hread.copied _ _ ⟨rfl, rfl⟩)
  rw [hcount] at hget
  have hbyte : ∀ i < count.toNat, i < sizeofRequest → count.toNat / 256 ^ i % 256 = 0x66 := by
    intro i hi hi8
    have hi' := hget i hi
    rw [List.getElem?_replicate_of_lt hi, junkAnswer] at hi'
    dsimp only at hi'
    rw [junkLoop_apply hi8, readRequest_apply h page hi8] at hi'
    have hnat := congrArg UInt8.toNat (Option.some.inj hi')
    rw [UInt8.toNat_ofNat'] at hnat
    exact hnat.symm
  have hfirst := hbyte 0 (by omega) (by norm_num)
  have hsecond := hbyte 1 (by omega) (by norm_num)
  omega

/-- The keyboard driver, with `bufpos` at 0 and without late keys. -/
theorem copied_keyboard (h : Accepts count) {pressed : List ℕ} {cnl : Channel} {stored : List UInt8}
    (ha : (Driver.keyboard 0 pressed 0).Answers (readRequest count page) cnl stored) :
    readReply cnl = stored.take cnl.result.toNat := by
  obtain ⟨hload, hlen⟩ := readReply_of_answers h ha
  rw [hload, hlen]
  obtain ⟨keys, lateKeys, -, hlate, ha⟩ := ha
  obtain rfl := List.eq_nil_of_length_eq_zero hlate
  obtain ⟨⟨s, rest⟩, hwait, heq⟩ := Option.map_eq_some_iff.mp ha
  cases heq
  obtain ⟨-, hdata, henough⟩ := wait_spec keys _ hwait
  rw [reqCount_readRequest h page, Nat.zero_add] at henough
  have hfield := Bytes.load_store_field (m := readRequest count page) (a := 0)
    (l := stored) (i := 0) (w := count.toNat) (by omega)
  dsimp only [List.foldl_nil]
  rw [hdata]
  exact hfield

/-- If there are late keys, or `bufpos` is not 0, the first key of the answer is not at the start of
the page, whatever it is. -/
theorem not_charRead_keyboard (h : Accepts count) (hpos : count ≠ 0) {bufpos late : ℕ}
    {pressed : List ℕ} (hbad : bufpos ≠ 0 ∨ late ≠ 0)
    (ha : ∃ cnl stored,
      (Driver.keyboard bufpos pressed late).Answers (readRequest count page) cnl stored) :
    ¬ CharRead (.keyboard bufpos pressed late) count page := by
  intro hread
  obtain ⟨cnl₀, stored₀, keys, lateKeys, hkeys, hlate, ha⟩ := ha
  obtain ⟨r₀, hwait, -⟩ := Option.map_eq_some_iff.mp ha
  -- a key that differs from the late ones, and from the first byte of the number
  let key : UInt8 := if late ≠ 0 ∨ UInt8.ofNat count.toNat = 0x62 then 0x61 else 0x62
  obtain ⟨⟨s, stored⟩, hs⟩ := Option.isSome_iff_exists.mp
    (wait_congr keys (keys.map (List.map fun _ => key)) _ ⟨bufpos, readRequest count page⟩
      (by simp [Function.comp_def]) rfl (Option.isSome_of_eq_some hwait))
  have hanswer : (Driver.keyboard bufpos pressed late).Answers (readRequest count page)
      ⟨int32 (reqCount (readRequest count page)),
        ((List.replicate late 0x62).foldl kbdAddBuf s).data⟩ stored := by
    refine ⟨keys.map (List.map fun _ => key), List.replicate late 0x62, ?_,
      List.length_replicate, ?_⟩
    · simp [Function.comp_def, hkeys]
    · rw [keyboardAnswer, hs]
      rfl
  have hget := getElem?_of_copied h hanswer (hread.copied _ _ hanswer) 0
    (by have := h.bounds.1; omega)
  have hfirst : ((List.replicate late 0x62).foldl kbdAddBuf s).data 0 = key := by
    obtain ⟨batch, hbatch, hmem⟩ := mem_of_mem_stored _ _ hs (List.mem_of_getElem? hget)
    obtain ⟨batch', -, rfl⟩ := List.mem_map.mp hbatch
    obtain ⟨_, -, hkey⟩ := List.mem_map.mp hmem
    exact hkey.symm
  obtain ⟨hs0, hdata, -⟩ := wait_spec _ _ hs
  rw [foldl_kbdAddBuf, hs0] at hfirst
  dsimp only at hfirst hdata
  by_cases hl : late = 0
  · have hbyte := readRequest_apply h page (i := 0) (by norm_num)
    rw [pow_zero, Nat.div_one] at hbyte
    rw [hl, List.replicate_zero, Bytes.store_nil, hdata, Bytes.store_of_disjoint (.inl (by omega)),
      hbyte] at hfirst
    by_cases hmark : UInt8.ofNat count.toNat = 0x62
    · have hkey : key = 0x61 := if_pos (.inr hmark)
      rw [hmark, hkey] at hfirst
      exact absurd hfirst (by decide)
    · have hkey : key = 0x62 := if_neg (by simp [hl, hmark])
      exact hmark (hfirst.trans hkey)
  · have hkey : key = 0x61 := if_pos (.inl hl)
    obtain ⟨n, rfl⟩ := Nat.exists_eq_succ_of_ne_zero hl
    rw [hkey] at hfirst
    exact absurd hfirst (by decide : (0x62 : UInt8) ≠ 0x61)

end Read

/-- A read that is answered gives what the driver stored exactly if nothing was asked for, or the
answer comes from the keyboard driver with `bufpos` at 0 and without late keys. -/
theorem charRead_iff (d : Driver) {count : ℤ} (page : Bytes) (h : Accepts count)
    (ha : ∃ cnl stored, d.Answers (readRequest count page) cnl stored) :
    CharRead d count page ↔ count = 0 ∨ ∃ pressed, d = .keyboard 0 pressed 0 := by
  constructor
  · intro hread
    by_contra hnot
    push Not at hnot
    obtain ⟨hpos, hd⟩ := hnot
    cases d with
    | junk => exact not_charRead_junk h hpos hread
    | keyboard bufpos pressed late =>
      refine not_charRead_keyboard h hpos ?_ ha hread
      by_contra hgood
      push Not at hgood
      obtain ⟨rfl, rfl⟩ := hgood
      exact hd pressed rfl
  · intro hgood
    refine ⟨?_, not_isClose h (reqCount_readRequest h page), ?_⟩
    · intro cnl stored ha
      rcases hgood with rfl | ⟨pressed, rfl⟩
      · obtain ⟨hload, hlen⟩ := readReply_of_answers h ha
        rw [hload, hlen]
        rfl
      · exact copied_keyboard h ha
    · intro buf _
      exact not_isClose h (reqCount_writeRequest h buf)

/-- Three keys, the first of which comes alone. -/
theorem charRead_three_keys : (∃ cnl stored,
      (Driver.keyboard 0 [1, 2] 0).Answers (readRequest 3 fun _ => 0) cnl stored) ∧
    CharRead (.keyboard 0 [1, 2] 0) 3 fun _ => 0 := by
  have haccepts : Accepts 3 := by
    unfold Accepts
    decide
  have ha : ∃ cnl stored,
      (Driver.keyboard 0 [1, 2] 0).Answers (readRequest 3 fun _ => 0) cnl stored := by
    have hsome : (keyboardAnswer (readRequest 3 fun _ => 0) 0 [[0x61], [0x62, 0x63]]
        []).isSome := by
      rw [keyboardAnswer, reqCount_readRequest haccepts _]
      rfl
    obtain ⟨⟨cnl, stored⟩, hanswer⟩ := Option.isSome_iff_exists.mp hsome
    exact ⟨cnl, stored, [[0x61], [0x62, 0x63]], [], rfl, rfl, hanswer⟩
  exact ⟨ha, (charRead_iff _ _ haccepts ha).mpr (.inr ⟨[1, 2], rfl⟩)⟩

/-- One byte from the junk driver: the buffer gets the number 1 instead of the letter `f`. -/
theorem not_charRead_junk_one : Accepts 1 ∧ ¬ CharRead .junk 1 fun _ => 0 := by
  have haccepts : Accepts 1 := by
    unfold Accepts
    decide
  exact ⟨haccepts, not_charRead_junk haccepts (by norm_num)⟩

end Savannah.CharDevice
