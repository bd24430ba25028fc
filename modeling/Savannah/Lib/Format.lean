import Savannah.Foundation.Numeral
import Savannah.Foundation.Bytes

/-!
# Formatted output

`vsnprintf` and `snprintf` of `lib/printf.c`, with the helpers `sn_put_hex` and `sn_put_decimal`.

The functions walk over the bytes of the format.  `items` reads the format and its arguments as a
list of items, and `render` is the text of these items with unlimited room.  The helpers write the
canonical numeral of their number as far as there is room (`snPutHex_eq`, `snPutDecimal_eq`).

Reading outside an object and overflow of an `int` have no meaning in the language and are faults.
The helper for hexadecimal numbers has one for zero, that for decimal numbers one for the least
`int`.
-/

namespace Savannah.Format

open Foundation

/-- A character constant. -/
abbrev char (c : Char) : UInt8 := c.toUInt8

/-- A string: its bytes before the zero that ends it. -/
structure CString where
  bytes : List UInt8
  nonzero : 0 ∉ bytes

/-- What a call has no meaning for: reading or writing outside an object, signed overflow, or an
argument that is missing or of another type. -/
inductive Fault
  | outside
  | overflow
  | argument
  deriving DecidableEq

/-- An argument. -/
inductive Arg
  | int (v : BitVec 32)
  | long (v : BitVec 64)
  | str (s : CString)

/-- The buffer and the index of the next character. -/
structure Out where
  buf : Bytes
  idx : ℕ

/-- `buf[i++] = b`, for a buffer of `n` bytes. -/
def Out.put (n : ℕ) (b : UInt8) (o : Out) : Except Fault Out :=
  if n ≤ o.idx then .error .outside
  else if 2 ^ 31 ≤ o.idx + 1 then .error .overflow
  else .ok ⟨Function.update o.buf o.idx b, o.idx + 1⟩

/-! ## The helpers -/

/-- The loop that copies the characters `i - 1`, ..., `0` of a buffer to the output. -/
def copyOut (n max : ℕ) (buffer : ℕ → UInt8) : ℕ → Out → Except Fault Out
  | 0, o => .ok o
  | i + 1, o =>
    if o.idx < max then do
      let o ← o.put n (buffer i)
      copyOut n max buffer i o
    else .ok o

/-- `digits` -/
def hexDigits : List UInt8 :=
  ['0', '1', '2', '3', '4', '5', '6', '7', '8', '9', 'A', 'B', 'C', 'D', 'E', 'F'].map char

/-- `buffer` of `sn_put_hex`, the lowest digit first. -/
def hexBuffer (num : BitVec 64) (i : ℕ) : UInt8 :=
  hexDigits.getD (num >>> (i <<< 2) &&& 0xF).toNat 0

/-- `while (buffer[i] == '0') i--`, with `i + 1` for `i`. -/
def skipZeros (buffer : ℕ → UInt8) : ℕ → Except Fault ℕ
  | 0 => .error .outside
  | i + 1 => if buffer i = char '0' then skipZeros buffer i else .ok (i + 1)

/-- `sn_put_hex` -/
def snPutHex (n : ℕ) (num : BitVec 64) (max : ℕ) (o : Out) : Except Fault Out := do
  let i ← skipZeros (hexBuffer num) 16
  let o ← if o.idx < max ∧ i = 0 then o.put n (char '0') else .ok o
  copyOut n max (hexBuffer num) i o

/-- The loop of `sn_put_decimal` that takes the number apart, with `space` bytes left in
`buffer`. -/
def takeApart : ℕ → ℕ → Except Fault (List ℕ)
  | 0, _ => .error .outside
  | space + 1, num =>
    if num / 10 > 0 then do
      let buffer ← takeApart space (num / 10)
      .ok ((num - num / 10 * 10) :: buffer)
    else .ok [num]

/-- `num` of `sn_put_decimal` without its sign. -/
def magnitude (num : ℤ) : Except Fault ℕ :=
  if num < 0 then
    if -num = 2 ^ 31 then .error .overflow else .ok (-num).toNat
  else .ok num.toNat

/-- The sign. -/
def putSign (n max : ℕ) (negative : Bool) (o : Out) : Except Fault Out :=
  if o.idx < max ∧ negative then o.put n (char '-') else .ok o

/-- `sn_put_decimal` -/
def snPutDecimal (n : ℕ) (num : BitVec 32) (max : ℕ) (o : Out) : Except Fault Out := do
  let buffer ← magnitude num.toInt >>= takeApart 20
  let o ← putSign n max (num.toInt < 0) o
  copyOut n max (fun i => char '0' + .ofNat (buffer.getD i 0)) buffer.length o

/-! ## The functions -/

/-- `while (i < n - 1 && (buf[i++] = *tmp++))`, from the bytes that can be read at `tmp`. -/
def copyString (n : ℕ) : List UInt8 → Out → Except Fault Out
  | [], o => if o.idx < n - 1 then .error .outside else .ok o
  | c :: tmp, o =>
    if o.idx < n - 1 then do
      let o ← o.put n c
      if c ≠ 0 then copyString n tmp o else .ok o
    else .ok o

/-- The case `'s'` of the `switch`. -/
def putString (n : ℕ) (s : CString) (o : Out) : Except Fault Out := do
  let o ← copyString n (s.bytes ++ [0]) o
  .ok (if o.idx < n - 1 then { o with idx := o.idx - 1 } else o)

/-- The `switch`, with the arguments that are left. -/
def convert (n : ℕ) (k : UInt8) (args : List Arg) (o : Out) : Except Fault (Out × List Arg) :=
  if k = char 'c' then
    match args with
    | .int v :: args => do
      let o ← o.put n (.ofBitVec (v.setWidth 8))
      .ok (o, args)
    | _ => .error .argument
  else if k = char 'x' then
    match args with
    | .long v :: args => do
      let o ← snPutHex n v (n - 1) o
      .ok (o, args)
    | _ => .error .argument
  else if k = char 'd' then
    match args with
    | .int v :: args => do
      let o ← snPutDecimal n v (n - 1) o
      .ok (o, args)
    | _ => .error .argument
  else if k = char 's' then
    match args with
    | .str s :: args => do
      let o ← putString n s o
      .ok (o, args)
    | _ => .error .argument
  else .ok (o, args)

/-- The loop over the format, from the bytes that can be read at `fmt`. -/
def loop (n : ℕ) : List UInt8 → List Arg → Out → Except Fault Out
  | [], _, _ => .error .outside
  | ch :: fmt, args, o =>
    if ch = 0 ∨ n - 1 ≤ o.idx then .ok o
    else if ch ≠ char '%' then do
      let o ← o.put n ch
      loop n fmt args o
    else
      match fmt with
      | [] => .error .outside
      | k :: fmt => do
        let (o, args) ← convert n k args o
        loop n fmt args o

/-- `buf[i] = '\0'` -/
def terminate (n : ℕ) (o : Out) : Except Fault Bytes :=
  if n ≤ o.idx then .error .outside else .ok (Function.update o.buf o.idx 0)

/-- The body of both functions. -/
def format (n : ℕ) (fmt : CString) (args : List Arg) (buf : Bytes) : Except Fault Bytes :=
  if n = 0 then .ok buf
  else if n = 1 then .ok (Function.update buf 0 0)
  else loop n (fmt.bytes ++ [0]) args ⟨buf, 0⟩ >>= terminate n

/-- `vsnprintf` -/
def vsnprintf (buf : Bytes) (fmt : CString) (n : ℕ) (args : List Arg) : Except Fault Bytes :=
  format n fmt args buf

/-- `snprintf` -/
def snprintf (buf : Bytes) (fmt : CString) (n : ℕ) (args : List Arg) : Except Fault Bytes :=
  format n fmt args buf

/-! ## What the format means -/

/-- An item of the output. -/
inductive Item
  | literal (b : UInt8)
  | character (v : BitVec 32)
  | hex (v : BitVec 64)
  | decimal (v : BitVec 32)
  | string (s : CString)
  | unknown

/-- The item of a conversion and the arguments that are left, if the next argument matches. -/
def conversion (k : UInt8) (args : List Arg) : Option (Item × List Arg) :=
  if k = char 'c' then
    match args with
    | .int v :: args => some (.character v, args)
    | _ => none
  else if k = char 'x' then
    match args with
    | .long v :: args => some (.hex v, args)
    | _ => none
  else if k = char 'd' then
    match args with
    | .int v :: args => some (.decimal v, args)
    | _ => none
  else if k = char 's' then
    match args with
    | .str s :: args => some (.string s, args)
    | _ => none
  else some (.unknown, args)

/-- The items of a format with its arguments; none if the format ends in a lone `%` or an argument
does not match. -/
def items : List UInt8 → List Arg → Option (List Item)
  | [], _ => some []
  | ch :: fmt, args =>
    if ch ≠ char '%' then (items fmt args).map (.literal ch :: ·)
    else
      match fmt with
      | [] => none
      | k :: fmt => (conversion k args).bind fun r => (items fmt r.2).map (r.1 :: ·)

/-- The text of a digit. -/
def digitChar (d : ℕ) : UInt8 := hexDigits.getD d 0

/-- The text of an item. -/
def Item.text : Item → List UInt8
  | .literal b => [b]
  | .character v => [.ofBitVec (v.setWidth 8)]
  | .hex v => (numeral 16 v.toNat).map digitChar
  | .decimal v =>
    (if v.toInt < 0 then [char '-'] else []) ++ (numeral 10 v.toInt.natAbs).map digitChar
  | .string s => s.bytes
  | .unknown => []

/-- The untruncated output. -/
def render (its : List Item) : List UInt8 := its.flatMap Item.text

/-- The outcome of a call with a buffer of `n` bytes that had the contents `buf`: it returns, with
the output cut to `n - 1` characters and a zero behind it, and has written to nothing else. -/
def Exact (n : ℕ) (out : List UInt8) (buf : Bytes) (res : Except Fault Bytes) : Prop :=
  ∃ buf', res = .ok buf' ∧
    buf'.load 0 ((out.take (n - 1)).length + 1) = out.take (n - 1) ++ [0] ∧
      ∀ j, n ≤ j → buf' j = buf j

/-- The helpers have a meaning for the item. -/
def Item.Defined : Item → Prop
  | .hex v => v ≠ 0
  | .decimal v => v.toInt ≠ -2 ^ 31
  | _ => True

instance : (it : Item) → Decidable it.Defined
  | .hex v => inferInstanceAs (Decidable (v ≠ 0))
  | .decimal v => inferInstanceAs (Decidable (v.toInt ≠ -2 ^ 31))
  | .literal _ | .character _ | .string _ | .unknown => inferInstanceAs (Decidable True)

/-- The zeros that an item writes behind its text. -/
def Item.zeros : Item → ℕ
  | .string _ => 1
  | _ => 0

/-- The condition for an exact output, from the index `i` on with room up to `max`: the items that
are reached are defined, the index stays an `int`, and no string has its zero at the last free place
unless the output ends there or goes on with a zero. -/
def Good (max : ℕ) : List Item → ℕ → Prop
  | [], _ => True
  | it :: its, i =>
    max ≤ i ∨ it.Defined ∧ i + min (it.text.length + it.zeros) (max - i) < 2 ^ 31 ∧
      if it.zeros = 1 ∧ it.text.length + 1 = max - i then (render its).headD 0 = 0
      else Good max its (i + min it.text.length (max - i))

instance decidableGood (max : ℕ) : (its : List Item) → (i : ℕ) → Decidable (Good max its i)
  | [], _ => inferInstanceAs (Decidable True)
  | it :: its, i =>
    have := decidableGood max its (i + min it.text.length (max - i))
    inferInstanceAs (Decidable (max ≤ i ∨ it.Defined ∧
      i + min (it.text.length + it.zeros) (max - i) < 2 ^ 31 ∧
        if it.zeros = 1 ∧ it.text.length + 1 = max - i then (render its).headD 0 = 0
        else Good max its (i + min it.text.length (max - i))))

/-! ## Writing a text as far as there is room -/

/-- The characters of a text are written while the index is below `max`. -/
def puts (n max : ℕ) : List UInt8 → Out → Except Fault Out
  | [], o => .ok o
  | b :: l, o =>
    if o.idx < max then do
      let o ← o.put n b
      puts n max l o
    else .ok o

section Puts

variable {n max : ℕ} {o : Out} {l l' : List UInt8}

theorem puts_of_le (h : max ≤ o.idx) : puts n max l o = .ok o := by
  cases l with
  | nil => rfl
  | cons b l => rw [puts, if_neg h.not_gt]

theorem puts_singleton {b : UInt8} (h : o.idx < max) : puts n max [b] o = o.put n b := by
  rw [puts, if_pos h]
  exact bind_pure _

/-- Two texts one after the other. -/
theorem puts_append : puts n max (l ++ l') o = puts n max l o >>= puts n max l' := by
  induction l generalizing o with
  | nil => rfl
  | cons b l ih =>
    rw [List.cons_append, puts, puts]
    split
    · rw [bind_assoc]
      exact congrArg _ (funext fun o => ih)
    · rename_i h
      exact (puts_of_le (Nat.not_lt.mp h)).symm

/-- The outcome: the part of the text for which there is room is in the buffer, unless the index
overflows. -/
theorem puts_eq (hmax : max ≤ n) (hidx : o.idx < 2 ^ 31) :
    puts n max l o =
      if o.idx + min l.length (max - o.idx) < 2 ^ 31 then
        .ok ⟨o.buf.store o.idx (l.take (max - o.idx)), o.idx + min l.length (max - o.idx)⟩
      else .error .overflow := by
  induction l generalizing o with
  | nil =>
    rw [puts, List.length_nil, Nat.zero_min, Nat.add_zero, if_pos hidx, List.take_nil,
      Bytes.store_nil]
  | cons b l ih =>
    by_cases hlt : o.idx < max
    · obtain ⟨room, hroom⟩ : ∃ room, max - o.idx = room + 1 := ⟨max - o.idx - 1, by omega⟩
      rw [puts, if_pos hlt, Out.put, if_neg (by omega), hroom, List.length_cons,
        List.take_succ_cons,
        Nat.add_min_add_right, ← Bytes.store_update]
      by_cases hover : 2 ^ 31 ≤ o.idx + 1
      · rw [if_pos hover, if_neg (by omega)]
        rfl
      · rw [if_neg hover]
        refine (ih (Nat.not_le.mp hover)).trans ?_
        dsimp only
        rw [show max - (o.idx + 1) = room by omega, Nat.add_right_comm o.idx 1, Nat.add_assoc o.idx]
    · rw [puts_of_le (Nat.not_lt.mp hlt), show max - o.idx = 0 by omega, Nat.min_zero, Nat.add_zero,
        if_pos hidx, List.take_zero, Bytes.store_nil]

/-- The digits come out in reverse. -/
theorem copyOut_eq (buffer : ℕ → UInt8) (i : ℕ) :
    copyOut n max buffer i o = puts n max ((List.range i).map buffer).reverse o := by
  induction i generalizing o with
  | zero => rfl
  | succ i ih =>
    rw [List.range_succ, List.map_append, List.reverse_append, copyOut]
    refine if_congr Iff.rfl ?_ rfl
    exact congrArg _ (funext fun o => ih)

end Puts

/-! ## Numbers -/

section Numbers

variable {n max : ℕ} {o : Out}

/-- The buffer has the digits. -/
theorem hexBuffer_eq (num : BitVec 64) (i : ℕ) :
    hexBuffer num i = digitChar (num.toNat / 16 ^ i % 16) := by
  have hmask : (num >>> (i <<< 2) &&& 0xF).toNat = num.toNat / 16 ^ i % 16 := by
    rw [BitVec.toNat_and, BitVec.toNat_ushiftRight, Nat.shiftRight_eq_div_pow, Nat.shiftLeft_eq,
      Nat.mul_comm, Nat.pow_mul]
    exact Nat.and_two_pow_sub_one_eq_mod _ 4
  rw [hexBuffer, hmask, digitChar]

theorem digitChar_eq_zero_iff {d : ℕ} (hd : d < 16) : digitChar d = char '0' ↔ d = 0 := by
  revert d
  decide

/-- The scan of the digits stops at the highest one that is not zero. -/
theorem skipZeros_eq {num : BitVec 64} (hnum : num.toNat ≠ 0) {k : ℕ}
    (hk : (numeral 16 num.toNat).length ≤ k) :
    skipZeros (hexBuffer num) k = .ok (numeral 16 num.toNat).length := by
  have hpos : 0 < (numeral 16 num.toNat).length := by
    rw [numeral, if_neg hnum, List.length_reverse]
    exact List.length_pos_iff.mpr (Nat.digits_ne_nil_iff_ne_zero.mpr hnum)
  induction k with
  | zero => omega
  | succ k ih =>
    have hlt : num.toNat / 16 ^ k % 16 < 16 := Nat.mod_lt _ (by decide)
    rw [skipZeros, hexBuffer_eq]
    rcases Nat.lt_or_ge k (numeral 16 num.toNat).length with h | h
    · have hlen : (numeral 16 num.toNat).length = k + 1 := by omega
      rw [if_neg, hlen]
      exact (digitChar_eq_zero_iff hlt).not.mpr (table_numeral_length (by decide) hnum hlen)
    · rw [if_pos ((digitChar_eq_zero_iff hlt).mpr (table_eq_zero (by decide) hnum h)), ih h]

/-- Of zero no digit stops the scan. -/
theorem skipZeros_zero (k : ℕ) : skipZeros (hexBuffer 0) k = .error .outside := by
  induction k with
  | zero => rfl
  | succ k ih =>
    rw [skipZeros, hexBuffer_eq, if_pos, ih]
    simp [digitChar, hexDigits]

/-- Zero reads outside of the buffer. -/
theorem snPutHex_zero : snPutHex n 0 max o = .error .outside := by
  rw [snPutHex, skipZeros_zero]
  rfl

/-- Of another number the scan stops inside `buffer`, and what is left of it is the numeral. -/
theorem hexBuffer_text {num : BitVec 64} (hnum : num ≠ 0) :
    ∃ i, skipZeros (hexBuffer num) 16 = .ok i ∧ 0 < i ∧ i ≤ 16 ∧
      ((List.range i).map (hexBuffer num)).reverse = (Item.hex num).text := by
  have hne : num.toNat ≠ 0 := fun h => hnum (BitVec.eq_of_toNat_eq h)
  have hlen : (numeral 16 num.toNat).length ≤ 16 :=
    numeral_length_le (by decide) (by decide) (num.isLt.trans_eq (by norm_num))
  have hpos : 0 < (numeral 16 num.toNat).length := by
    rw [numeral, if_neg hne, List.length_reverse]
    exact List.length_pos_iff.mpr (Nat.digits_ne_nil_iff_ne_zero.mpr hne)
  refine ⟨_, skipZeros_eq hne hlen, hpos, hlen, ?_⟩
  rw [Item.text, numeral_eq_table (by decide) hne, List.length_reverse, List.length_map,
    List.length_range, List.map_reverse, List.map_map]
  exact congrArg _ (List.map_congr_left fun i _ => hexBuffer_eq num i)

/-- `sn_put_hex` prints the number. -/
theorem snPutHex_eq {num : BitVec 64} (hnum : num ≠ 0) :
    snPutHex n num max o = puts n max (Item.hex num).text o := by
  obtain ⟨i, hi, hpos, -, htext⟩ := hexBuffer_text hnum
  rw [← htext, ← copyOut_eq, snPutHex, hi]
  dsimp only [bind, Except.bind]
  rw [if_neg fun h => hpos.ne' h.2]

/-- The digits from the lowest on, if there is space for them. -/
theorem takeApart_eq {space num : ℕ} (hspace : num < 10 ^ space) (hpos : 0 < space) :
    takeApart space num = .ok (numeral 10 num).reverse := by
  induction space generalizing num with
  | zero => omega
  | succ space ih =>
    rw [takeApart]
    split
    · rename_i hdiv
      have hle : 10 ≤ num := by omega
      have hlt : num / 10 < 10 ^ space := Nat.div_lt_of_lt_mul (by rwa [← Nat.pow_succ'])
      have hspace' : 0 < space := by
        rcases Nat.eq_zero_or_pos space with rfl | h
        · omega
        · exact h
      rw [ih hlt hspace', numeral_of_le (by decide) hle, List.reverse_append]
      show Except.ok _ = _
      rw [show num - num / 10 * 10 = num % 10 by omega]
      rfl
    · rw [numeral_of_lt (by omega)]
      rfl

theorem char_zero_add {d : ℕ} (hd : d < 10) : char '0' + .ofNat d = digitChar d := by
  revert d
  decide

/-- The digits that were taken from a number, from the highest on. -/
theorem digits_text (m : ℕ) :
    ((List.range (numeral 10 m).reverse.length).map
      fun i => char '0' + .ofNat ((numeral 10 m).reverse.getD i 0)).reverse =
      (numeral 10 m).map digitChar := by
  rw [← List.reverse_inj, List.reverse_reverse, ← List.map_reverse]
  refine List.ext_getElem (by simp) fun i hi hi' => ?_
  rw [List.length_map, List.length_range] at hi
  rw [List.getElem_map, List.getElem_map, List.getElem_range, List.getD_eq_getElem _ _ hi]
  exact char_zero_add (lt_of_mem_numeral (by decide) (List.mem_reverse.mp (List.getElem_mem hi)))

/-- The part of `sn_put_decimal` after the sign is known. -/
theorem putDigits_eq {sign : List UInt8} {m : ℕ} (hm : m < 10 ^ 20) :
    (do
      let buffer ← takeApart 20 m
      let o ← puts n max sign o
      copyOut n max (fun i => char '0' + .ofNat (buffer.getD i 0)) buffer.length o) =
      puts n max (sign ++ (numeral 10 m).map digitChar) o := by
  rw [takeApart_eq hm (by decide), puts_append]
  dsimp only [bind, Except.bind]
  simp only [copyOut_eq, digits_text]

/-- The absolute value. -/
theorem magnitude_eq {num : ℤ} (hnum : num ≠ -2 ^ 31) (hle : -2 ^ 31 ≤ num) :
    magnitude num = .ok num.natAbs := by
  unfold magnitude
  split
  · rw [if_neg (by omega)]
    exact congrArg _ (by omega)
  · exact congrArg _ (by omega)

theorem putSign_eq (num : ℤ) (o : Out) :
    putSign n max (num < 0) o = puts n max (if num < 0 then [char '-'] else []) o := by
  unfold putSign
  by_cases hneg : num < 0
  · by_cases hidx : o.idx < max
    · rw [if_pos ⟨hidx, decide_eq_true hneg⟩, if_pos hneg, puts_singleton hidx]
    · rw [if_neg fun h => hidx h.1, puts_of_le (Nat.not_lt.mp hidx)]
  · rw [if_neg fun h => hneg (of_decide_eq_true h.2), if_neg hneg]
    rfl

/-- `sn_put_decimal` prints the number. -/
theorem snPutDecimal_eq {num : BitVec 32} (hnum : num.toInt ≠ -2 ^ 31) :
    snPutDecimal n num max o = puts n max (Item.decimal num).text o := by
  have hlt : num.toInt < 2 ^ 31 := num.toInt_lt
  have hle : -2 ^ 31 ≤ num.toInt := num.le_toInt
  have hm : num.toInt.natAbs < 10 ^ 20 := by omega
  rw [Item.text, ← putDigits_eq hm, snPutDecimal, magnitude_eq hnum hle]
  simp only [putSign_eq]
  rfl

/-- The least number overflows. -/
theorem snPutDecimal_min {num : BitVec 32} (hnum : num.toInt = -2 ^ 31) :
    snPutDecimal n num max o = .error .overflow := by
  have hmin : magnitude (-2 ^ 31) = .error .overflow := by decide
  rw [snPutDecimal, hnum, hmin]
  rfl

end Numbers

end Savannah.Format
