import Savannah.Drivers.CharDevice
import Savannah.Foundation.Run

/-!
# The keyboard driver's decoder

`kbd_proc_data` of `drivers/keyboard/keyboard.c` turns scan codes into characters.  It folds the
left and the right keys of a modifier into one flag, skips the byte `0xE0` that distinguishes them,
and stores the entry of `keymap` for every other code below `0x80` at `buffer[bufpos++]`.  Between
the interrupts `wait_for_completed_request` looks at `bufpos`, sets it back, and the answer is sent.

Beside the driver runs the keyboard as a person sees it: which of the six modifier keys are down,
and which characters the keys of the pending read stand for (`World`).  The two agree
(`decoded_of_run`) as long as a modifier key is not released while its partner is down, the codes
that belong to no key (the shifts that a keyboard sends of its own around the grey keys, and the
parts of the Pause key) do not come, the keys lie in the table and have an entry of one byte,
Ctrl-Alt-Del is not pressed, and no key comes when the read is complete.
-/

namespace Savannah.CharDevice

open Foundation

/-! ### The driver -/

/-- `NOP` -/
abbrev nop : ℕ := 0

/-- A character constant. -/
abbrev chr (c : Char) : ℕ := c.toNat

/-- `keymap`, with a row for each scan code. The columns are: base, shift, ctrl, ctrl shift, alt,
alt shift, alt ctrl, alt ctrl shift. -/
def keymap : List (List ℕ) :=
  [[nop, nop, nop, nop, nop, nop, nop, nop],
   [0x1B, 0x1B, 0x1B, 0x1B, 0x1B, 0x1B, nop, 0x1B],
   [chr '1', chr '!', nop, nop, chr '1', chr '!', nop, nop],
   [chr '2', chr '@', 0x00, 0x00, chr '2', chr '@', 0x00, 0x00],
   [chr '3', chr '#', nop, nop, chr '3', chr '#', nop, nop],
   [chr '4', chr '$', nop, nop, chr '4', chr '$', nop, nop],
   [chr '5', chr '%', nop, nop, chr '5', chr '%', nop, nop],
   [chr '6', chr '^', 0x1E, 0x1E, chr '6', chr '^', 0x1E, 0x1E],
   [chr '7', chr '&', nop, nop, chr '7', chr '&', nop, nop],
   [chr '8', chr '*', nop, nop, chr '8', chr '*', nop, nop],
   [chr '9', chr '(', nop, nop, chr '9', chr '(', nop, nop],
   [chr '0', chr ')', nop, nop, chr '0', chr ')', nop, nop],
   [chr '-', chr '_', 0x1F, 0x1F, chr '-', chr '_', 0x1F, 0x1F],
   [chr '=', chr '+', nop, nop, chr '=', chr '+', nop, nop],
   [0x08, 0x08, 0x7F, 0x7F, 0x08, 0x08, 0x7F, 0x7F],
   [0x09, 0xF00, nop, nop, 0x09, 0xF00, nop, nop],
   [chr 'q', chr 'Q', 0x11, 0x11, chr 'q', chr 'Q', 0x11, 0x11],
   [chr 'w', chr 'W', 0x17, 0x17, chr 'w', chr 'W', 0x17, 0x17],
   [chr 'e', chr 'E', 0x05, 0x05, chr 'e', chr 'E', 0x05, 0x05],
   [chr 'r', chr 'R', 0x12, 0x12, chr 'r', chr 'R', 0x12, 0x12],
   [chr 't', chr 'T', 0x14, 0x14, chr 't', chr 'T', 0x14, 0x14],
   [chr 'y', chr 'Y', 0x19, 0x19, chr 'y', chr 'Y', 0x19, 0x19],
   [chr 'u', chr 'U', 0x15, 0x15, chr 'u', chr 'U', 0x15, 0x15],
   [chr 'i', chr 'I', 0x09, 0x09, chr 'i', chr 'I', 0x09, 0x09],
   [chr 'o', chr 'O', 0x0F, 0x0F, chr 'o', chr 'O', 0x0F, 0x0F],
   [chr 'p', chr 'P', 0x10, 0x10, chr 'p', chr 'P', 0x10, 0x10],
   [chr '[', 0x7B, 0x1B, 0x1B, chr '[', 0x7B, 0x1B, 0x1B],
   [chr ']', 0x7D, 0x1D, 0x1D, chr ']', 0x7D, 0x1D, 0x1D],
   [0x0A, 0x0A, 0x0A, 0x0A, 0x0A, 0x0A, 0x0A, 0x0A],
   [nop, nop, nop, nop, nop, nop, nop, nop],
   [chr 'a', chr 'A', 0x01, 0x01, chr 'a', chr 'A', 0x01, 0x01],
   [chr 's', chr 'S', 0x13, 0x13, chr 's', chr 'S', 0x13, 0x13],
   [chr 'd', chr 'D', 0x04, 0x04, chr 'd', chr 'D', 0x04, 0x04],
   [chr 'f', chr 'F', 0x06, 0x06, chr 'f', chr 'F', 0x06, 0x06],
   [chr 'g', chr 'G', 0x07, 0x07, chr 'g', chr 'G', 0x07, 0x07],
   [chr 'h', chr 'H', 0x08, 0x08, chr 'h', chr 'H', 0x08, 0x08],
   [chr 'j', chr 'J', 0x0A, 0x0A, chr 'j', chr 'J', 0x0A, 0x0A],
   [chr 'k', chr 'K', 0x0B, 0x0B, chr 'k', chr 'K', 0x0B, 0x0B],
   [chr 'l', chr 'L', 0x0C, 0x0C, chr 'l', chr 'L', 0x0C, 0x0C],
   [chr ';', chr ':', nop, nop, chr ';', chr ':', nop, nop],
   [0x27, 0x22, nop, nop, 0x27, 0x22, nop, nop],
   [0x60, chr '~', nop, nop, 0x60, chr '~', nop, nop],
   [nop, nop, nop, nop, nop, nop, nop, nop],
   [0x5C, chr '|', 0x1C, 0x1C, 0x5C, chr '|', 0x1C, 0x1C],
   [chr 'z', chr 'Z', 0x1A, 0x1A, chr 'z', chr 'Z', 0x1A, 0x1A],
   [chr 'x', chr 'X', 0x18, 0x18, chr 'x', chr 'X', 0x18, 0x18],
   [chr 'c', chr 'C', 0x03, 0x03, chr 'c', chr 'C', 0x03, 0x03],
   [chr 'v', chr 'V', 0x16, 0x16, chr 'v', chr 'V', 0x16, 0x16],
   [chr 'b', chr 'B', 0x02, 0x02, chr 'b', chr 'B', 0x02, 0x02],
   [chr 'n', chr 'N', 0x0E, 0x0E, chr 'n', chr 'N', 0x0E, 0x0E],
   [chr 'm', chr 'M', 0x0D, 0x0D, chr 'm', chr 'M', 0x0D, 0x0D],
   [chr ',', chr '<', nop, nop, chr ',', chr '<', nop, nop],
   [chr '.', chr '>', nop, nop, chr '.', chr '>', nop, nop],
   [chr '/', chr '?', nop, nop, chr '/', chr '?', nop, nop],
   [nop, nop, nop, nop, nop, nop, nop, nop],
   [chr '*', chr '*', chr '*', chr '*', chr '*', chr '*', chr '*', chr '*'],
   [nop, nop, nop, nop, nop, nop, nop, nop],
   [chr ' ', chr ' ', 0x00, chr ' ', chr ' ', chr ' ', nop, chr ' '],
   [nop, nop, nop, nop, nop, nop, nop, nop],
   [0x3B00, 0x5400, 0x5E00, nop, 0x6800, nop, nop, nop],
   [0x3C00, 0x5500, 0x5F00, nop, 0x6900, nop, nop, nop],
   [0x3D00, 0x5600, 0x6000, nop, 0x6A00, nop, nop, nop],
   [0x3E00, 0x5700, 0x6100, nop, 0x6B00, nop, nop, nop],
   [0x3F00, 0x5800, 0x6200, nop, 0x6C00, nop, nop, nop],
   [0x4000, 0x5900, 0x6300, nop, 0x6D00, nop, nop, nop],
   [0x4100, 0x5A00, 0x6400, nop, 0x6E00, nop, nop, nop],
   [0x4200, 0x5B00, 0x6500, nop, 0x6F00, nop, nop, nop],
   [0x4300, 0x5C00, 0x6600, nop, 0x7000, nop, nop, nop],
   [0x4400, 0x5D00, 0x6700, nop, 0x7100, nop, nop, nop],
   [nop, nop, nop, nop, nop, nop, nop, nop],
   [nop, nop, nop, nop, nop, nop, nop, nop],
   [0x4700, chr '7', chr '7', chr '7', chr '7', chr '7', chr '7', chr '7'],
   [0x4800, chr '8', chr '8', chr '8', chr '8', chr '8', chr '8', chr '8'],
   [0x4900, chr '9', chr '9', chr '9', chr '9', chr '9', chr '9', chr '9'],
   [chr '-', chr '-', chr '-', chr '-', chr '-', chr '-', chr '-', chr '-'],
   [0x4B00, chr '4', chr '4', chr '4', chr '4', chr '4', chr '4', chr '4'],
   [0x4C00, chr '5', chr '5', chr '5', chr '5', chr '5', chr '5', chr '5'],
   [0x4D00, chr '6', chr '6', chr '6', chr '6', chr '6', chr '6', chr '6'],
   [chr '+', chr '+', chr '+', chr '+', chr '+', chr '+', chr '+', chr '+'],
   [0x4F00, chr '1', chr '1', chr '1', chr '1', chr '1', chr '1', chr '1'],
   [0x5000, chr '2', chr '2', chr '2', chr '2', chr '2', chr '2', chr '2'],
   [0x5100, chr '3', chr '3', chr '3', chr '3', chr '3', chr '3', chr '3'],
   [0x5200, chr '0', chr '0', chr '0', chr '0', chr '0', chr '0', chr '0'],
   [0x5300, chr '.', chr '.', chr '.', chr '.', chr '.', nop, nop]]

/-- The flags `shift_pressed`, `ctrl_pressed` and `alt_pressed`. -/
structure Modifiers where
  shift : Bool
  ctrl : Bool
  alt : Bool
  deriving DecidableEq, Repr

/-- `(ctrl_pressed<<1) | (shift_pressed) | (alt_pressed<<2)` -/
def Modifiers.column (m : Modifiers) : ℕ :=
  m.ctrl.toNat <<< 1 ||| m.shift.toNat ||| m.alt.toNat <<< 2

/-- The entry of the table, if there is one. -/
def keymapEntry (row : ℕ) (m : Modifiers) : Option ℕ := keymap[row]?.bind (·[m.column]?)

/-- What the handler calls instead of returning: `panic` when the controller has no data, and
`halt` on Ctrl-Alt-Del. -/
inductive KbdHalt where
  | noData
  | ctrlAltDel
  deriving DecidableEq, Repr

/-- The result of a handler that does not return. -/
abbrev KbdStop := Stop KbdHalt

/-- Where the driver is: in `cnl_receive_any` with interrupts off, in the loop of
`wait_for_completed_request`, or behind it, before the interrupts are turned off. -/
inductive Phase where
  | idle
  | waiting (count : ℤ)
  | completed (count : ℤ)
  deriving DecidableEq, Repr

/-- The driver. -/
structure DriverState where
  pressed : Modifiers
  kbd : Keyboard
  phase : Phase

/-- `kbd_proc_data`, with the byte that the controller has. -/
def kbdProcData (port : Option UInt8) (s : DriverState) : Except KbdStop DriverState :=
  match port with
  | none => .error (.panic .noData)
  | some scanCode =>
    if scanCode = 0xE0 then .ok s
    else if scanCode = 0x1D then .ok { s with pressed := { s.pressed with ctrl := true } }
    else if scanCode = 0x38 then .ok { s with pressed := { s.pressed with alt := true } }
    else if scanCode = 0x2A ∨ scanCode = 0x36 then
      .ok { s with pressed := { s.pressed with shift := true } }
    else if scanCode = 0x1D ||| 0x80 then
      .ok { s with pressed := { s.pressed with ctrl := false } }
    else if scanCode = 0x38 ||| 0x80 then
      .ok { s with pressed := { s.pressed with alt := false } }
    else if scanCode = 0x2A ||| 0x80 ∨ scanCode = 0x36 ||| 0x80 then
      .ok { s with pressed := { s.pressed with shift := false } }
    else if s.pressed.alt ∧ s.pressed.ctrl ∧ scanCode = 0x53 then .error (.panic .ctrlAltDel)
    else if scanCode &&& 0x80 ≠ 0 then .ok s
    else
      match keymapEntry scanCode.toNat s.pressed with
      -- the entry is an `int`, the buffer has bytes
      | some asciCode => .ok { s with kbd := kbdAddBuf s.kbd (.ofNat asciCode) }
      | none => .error (.outOfBounds scanCode.toNat)

/-- What happens to the driver: a request with the page of its channel, a scan code while the
interrupts are on, the check after `hlt`, and the reply. -/
inductive KbdEvent where
  | request (count : ℤ) (page : Bytes)
  | interrupt (code : UInt8)
  | check
  | reply

/-- The driver after an event, if the event can happen. -/
def DriverState.next (s : DriverState) : KbdEvent → Option (Except KbdStop DriverState)
  | .request count page =>
    match s.phase with
    | .idle => some (.ok { s with kbd := { s.kbd with data := page }, phase := .waiting count })
    | _ => none
  | .interrupt code =>
    match s.phase with
    | .idle => none
    | _ => some (kbdProcData (some code) s)
  | .check =>
    match s.phase with
    | .waiting count =>
      if (s.kbd.bufpos : ℤ) ≥ count then
        some (.ok { s with kbd := { s.kbd with bufpos := 0 }, phase := .completed count })
      else some (.ok s)
    | _ => none
  | .reply =>
    match s.phase with
    | .completed _ => some (.ok { s with phase := .idle })
    | _ => none

/-! ### The keyboard -/

/-- The modifier keys. -/
inductive ModifierKey where
  | leftShift
  | rightShift
  | leftCtrl
  | rightCtrl
  | leftAlt
  | rightAlt
  deriving DecidableEq, Repr

/-- The other key of the same modifier. -/
def ModifierKey.partner : ModifierKey → ModifierKey
  | leftShift => rightShift
  | rightShift => leftShift
  | leftCtrl => rightCtrl
  | rightCtrl => leftCtrl
  | leftAlt => rightAlt
  | rightAlt => leftAlt

/-- What precedes a code: nothing, `0xE0`, or one or two bytes of the sequence of `0xE1`. -/
inductive Lead where
  | none
  | extended
  | pauseFirst
  | pauseSecond
  deriving DecidableEq, Repr

/-- What precedes the next code. -/
def Lead.next (lead : Lead) (code : UInt8) : Lead :=
  match lead with
  | .pauseFirst => .pauseSecond
  | .pauseSecond => .none
  | _ => if code = 0xE0 then .extended else if code = 0xE1 then .pauseFirst else .none

/-- What a code says about the keyboard. -/
inductive Meaning where
  /-- The first byte of a longer code. -/
  | lead
  | press (k : ModifierKey)
  | release (k : ModifierKey)
  /-- A key that is not a modifier goes down. -/
  | make (row : ℕ)
  /-- A key that is not a modifier goes up. -/
  | break
  /-- No key by itself. -/
  | noKey
  deriving DecidableEq, Repr

/-- The meaning of a code.  The right keys of ctrl and alt have the codes of the left ones behind
`0xE0`; a shift behind `0xE0` is sent by the keyboard and not by a person. -/
def meaning (lead : Lead) (code : UInt8) : Meaning :=
  if lead = .pauseFirst ∨ lead = .pauseSecond ∨ code = 0xE1 then .noKey
  else if code = 0xE0 then .lead
  else if code = 0x1D then .press (if lead = .extended then .rightCtrl else .leftCtrl)
  else if code = 0x38 then .press (if lead = .extended then .rightAlt else .leftAlt)
  else if code = 0x2A ∨ code = 0x36 then
    if lead = .extended then .noKey
    else .press (if code = 0x36 then .rightShift else .leftShift)
  else if code = 0x1D ||| 0x80 then .release (if lead = .extended then .rightCtrl else .leftCtrl)
  else if code = 0x38 ||| 0x80 then .release (if lead = .extended then .rightAlt else .leftAlt)
  else if code = 0x2A ||| 0x80 ∨ code = 0x36 ||| 0x80 then
    if lead = .extended then .noKey
    else .release (if code = 0x36 ||| 0x80 then .rightShift else .leftShift)
  else if code &&& 0x80 ≠ 0 then .break
  else .make code.toNat

/-- The keyboard: the modifier keys that are down, and the characters for the keys that were pressed
since the last request. -/
structure World where
  lead : Lead
  held : ModifierKey → Bool
  appended : List ℕ

/-- A modifier is held while one of its keys is down. -/
def World.modifiers (w : World) : Modifiers where
  shift := w.held .leftShift || w.held .rightShift
  ctrl := w.held .leftCtrl || w.held .rightCtrl
  alt := w.held .leftAlt || w.held .rightAlt

/-- The keyboard after a code. -/
def World.code (w : World) (code : UInt8) : World :=
  let lead := w.lead.next code
  match meaning w.lead code with
  | .press k => { w with lead, held := Function.update w.held k true }
  | .release k => { w with lead, held := Function.update w.held k false }
  | .make row => { w with lead, appended := w.appended ++ (keymapEntry row w.modifiers).toList }
  | _ => { w with lead }

/-- The keyboard after an event of the driver. -/
def World.next (w : World) : KbdEvent → World
  | .request _ _ => { w with appended := [] }
  | .interrupt code => w.code code
  | _ => w

/-! ### Both together -/

/-- The driver beside the keyboard. -/
structure System where
  driver : DriverState
  world : World

/-- The start: no key is down. -/
def System.boot (page : Bytes) : System where
  driver := ⟨⟨false, false, false⟩, ⟨0, page⟩, .idle⟩
  world := ⟨.none, fun _ => false, []⟩

/-- An event from which both return. -/
def System.Step (S : System) (e : KbdEvent) (S' : System) : Prop :=
  S.driver.next e = some (.ok S'.driver) ∧ S'.world = S.world.next e

/-- A key that the driver handles as it should: the row is in the table and the entry is one byte,
the key is not the one of Ctrl-Alt-Del, and the read that is pending needs one more. -/
structure Keyable (S : System) (row : ℕ) : Prop where
  row_lt : row < 0x54
  entry_lt : ∀ entry, keymapEntry row S.world.modifiers = some entry → entry < 256
  not_del : ¬ (S.world.modifiers.alt ∧ S.world.modifiers.ctrl ∧ row = 0x53)
  pending : ∃ count, S.driver.phase = .waiting count ∧ (S.driver.kbd.bufpos : ℤ) < count

/-- The events that the driver handles as it should. -/
def Fair (S : System) : KbdEvent → Prop
  | .interrupt code =>
    match meaning S.world.lead code with
    | .noKey => False
    | .release k => S.world.held k.partner = false
    | .make row => Keyable S row
    | _ => True
  | _ => True

/-- What holds of the driver: the flags are the modifiers that are held, the bytes stored for the
read that is pending are the characters of the keys, a read that is complete has the first of them,
and every code is handled without leaving the table and with at most one write, inside the part of
the page that was asked for. -/
structure Decoded (S : System) : Prop where
  pressed : S.driver.pressed = S.world.modifiers
  stored : ∀ count, S.driver.phase = .waiting count →
    (S.driver.kbd.data.load 0 S.driver.kbd.bufpos).map UInt8.toNat = S.world.appended
  answer : ∀ count : ℤ, S.driver.phase = .completed count →
    (S.driver.kbd.data.load 0 count.toNat).map UInt8.toNat = S.world.appended.take count.toNat
  inside : ∀ code, Fair S (.interrupt code) → ∃ d, kbdProcData (some code) S.driver = .ok d ∧
    d.phase = S.driver.phase ∧
    (d.kbd = S.driver.kbd ∨ ∃ count key, S.driver.phase = .waiting count ∧
      (S.driver.kbd.bufpos : ℤ) < count ∧ d.kbd = kbdAddBuf S.driver.kbd key)

/-! ### One code -/

/-- The flag of the modifier to which a key belongs is set. -/
def Modifiers.set (m : Modifiers) (k : ModifierKey) (b : Bool) : Modifiers :=
  match k with
  | .leftShift | .rightShift => { m with shift := b }
  | .leftCtrl | .rightCtrl => { m with ctrl := b }
  | .leftAlt | .rightAlt => { m with alt := b }

/-- The handler for a code that belongs to a key, from what the code means. -/
def Meaning.handle (s : DriverState) : Meaning → Except KbdStop DriverState
  | .press k => .ok { s with pressed := s.pressed.set k true }
  | .release k => .ok { s with pressed := s.pressed.set k false }
  | .make row =>
    if s.pressed.alt ∧ s.pressed.ctrl ∧ row = 0x53 then .error (.panic .ctrlAltDel)
    else
      match keymapEntry row s.pressed with
      | some asciCode => .ok { s with kbd := kbdAddBuf s.kbd (.ofNat asciCode) }
      | none => .error (.outOfBounds row)
  | _ => .ok s

section Code

variable {S : System} {code : UInt8} {lead : Lead}

/-- The codes that the handler singles out. -/
def specialCodes : List UInt8 :=
  [0xE0, 0xE1, 0x1D, 0x38, 0x2A, 0x36, 0x1D ||| 0x80, 0x38 ||| 0x80, 0x2A ||| 0x80, 0x36 ||| 0x80]

/-- A code that is not singled out is that of an ordinary key. -/
theorem meaning_of_not_special (hlead : lead ≠ .pauseFirst ∧ lead ≠ .pauseSecond)
    (hcode : code ∉ specialCodes) :
    meaning lead code = if code &&& 0x80 ≠ 0 then .break else .make code.toNat := by
  simp only [specialCodes, List.mem_cons, List.not_mem_nil, or_false, not_or] at hcode
  obtain ⟨h₀, h₁, h₂, h₃, h₄, h₅, h₆, h₇, h₈, h₉⟩ := hcode
  unfold meaning
  rw [if_neg (by tauto), if_neg h₀, if_neg h₂, if_neg h₃, if_neg (by tauto), if_neg h₆, if_neg h₇,
    if_neg (not_or.mpr ⟨h₈, h₉⟩)]

/-- An ordinary key. -/
theorem kbdProcData_of_not_special (s : DriverState) (hcode : code ∉ specialCodes) :
    kbdProcData (some code) s =
      if code &&& 0x80 ≠ 0 then .ok s else (Meaning.make code.toNat).handle s := by
  simp only [specialCodes, List.mem_cons, List.not_mem_nil, or_false, not_or] at hcode
  obtain ⟨h₀, h₁, h₂, h₃, h₄, h₅, h₆, h₇, h₈, h₉⟩ := hcode
  have hdel : code = 0x53 ↔ code.toNat = 0x53 := ⟨fun h => h ▸ rfl, fun h => UInt8.toNat_inj.mp h⟩
  unfold kbdProcData Meaning.handle
  dsimp only
  rw [if_neg h₀, if_neg h₂, if_neg h₃, if_neg (by tauto), if_neg h₆, if_neg h₇,
    if_neg (not_or.mpr ⟨h₈, h₉⟩)]
  by_cases hbreak : code &&& 0x80 ≠ 0
  · have hne : code ≠ 0x53 := by
      rintro rfl
      exact hbreak rfl
    rw [if_neg (fun h => hne h.2.2), if_pos hbreak, if_pos hbreak]
  · rw [if_neg hbreak, if_neg hbreak]
    exact if_congr (by rw [hdel]) rfl rfl

/-- The handler sees no more of a code than its meaning, although it forgets what precedes it. -/
theorem kbdProcData_eq (s : DriverState) (h : meaning lead code ≠ .noKey) :
    kbdProcData (some code) s = (meaning lead code).handle s := by
  by_cases hcode : code ∈ specialCodes
  · simp only [specialCodes, List.mem_cons, List.not_mem_nil, or_false] at hcode
    rcases hcode with rfl | rfl | rfl | rfl | rfl | rfl | rfl | rfl | rfl | rfl <;>
      cases lead <;> first | rfl | exact absurd rfl h
  · have hlead : lead ≠ .pauseFirst ∧ lead ≠ .pauseSecond := by
      constructor <;> rintro rfl <;> exact h rfl
    rw [kbdProcData_of_not_special s hcode, meaning_of_not_special hlead hcode]
    split <;> rfl

/-- Every row of the table has an entry for all modifiers. -/
theorem exists_keymapEntry {row : ℕ} (h : row < 0x54) (m : Modifiers) :
    ∃ entry, keymapEntry row m = some entry := by
  have hrows : ∀ r ∈ keymap, r.length = 8 := by decide
  have hcolumn : m.column < 8 := by
    obtain ⟨shift, ctrl, alt⟩ := m
    cases shift <;> cases ctrl <;> cases alt <;> decide
  have hlt : row < keymap.length := h
  have hrow : keymap[row]? = some keymap[row] := List.getElem?_eq_getElem hlt
  have hlen : keymap[row].length = 8 := hrows _ (List.getElem_mem hlt)
  unfold keymapEntry
  rw [hrow, Option.bind_some, List.getElem?_eq_getElem (by rw [hlen]; exact hcolumn)]
  exact ⟨_, rfl⟩

/-- Pressing a modifier key. -/
theorem modifiers_press (w : World) (k : ModifierKey) :
    { w with held := Function.update w.held k true }.modifiers = w.modifiers.set k true := by
  cases k <;> simp [World.modifiers, Modifiers.set]

/-- The flag is right after a release unless the other key is still down. -/
theorem modifiers_release (w : World) {k : ModifierKey} (h : w.held k.partner = false) :
    { w with held := Function.update w.held k false }.modifiers = w.modifiers.set k false := by
  cases k <;> simp_all [World.modifiers, Modifiers.set, ModifierKey.partner]

/-- One code: the flags stay the modifiers that are held, and a key that is not a modifier is
stored. -/
theorem kbdProcData_spec (hpressed : S.driver.pressed = S.world.modifiers)
    (hfair : Fair S (.interrupt code)) :
    ∃ d, kbdProcData (some code) S.driver = .ok d ∧ d.phase = S.driver.phase ∧
      d.pressed = (S.world.code code).modifiers ∧
      (d.kbd = S.driver.kbd ∧ (S.world.code code).appended = S.world.appended ∨
        ∃ count entry, S.driver.phase = .waiting count ∧ (S.driver.kbd.bufpos : ℤ) < count ∧
          entry < 256 ∧ d.kbd = kbdAddBuf S.driver.kbd (.ofNat entry) ∧
          (S.world.code code).appended = S.world.appended ++ [entry]) := by
  simp only [Fair] at hfair
  have hnoKey : meaning S.world.lead code ≠ .noKey := by
    intro h
    rw [h] at hfair
    exact hfair
  rw [kbdProcData_eq S.driver hnoKey]
  unfold World.code
  cases hm : meaning S.world.lead code with
  | lead => exact ⟨_, rfl, rfl, hpressed, .inl ⟨rfl, rfl⟩⟩
  | «break» => exact ⟨_, rfl, rfl, hpressed, .inl ⟨rfl, rfl⟩⟩
  | noKey => exact absurd hm hnoKey
  | press k =>
    refine ⟨_, rfl, rfl, ?_, .inl ⟨rfl, rfl⟩⟩
    rw [hpressed]
    exact (modifiers_press S.world k).symm
  | release k =>
    rw [hm] at hfair
    refine ⟨_, rfl, rfl, ?_, .inl ⟨rfl, rfl⟩⟩
    rw [hpressed]
    exact (modifiers_release S.world hfair).symm
  | make row =>
    rw [hm] at hfair
    obtain ⟨hrow, hentry, hdel, count, hphase, hroom⟩ := hfair
    obtain ⟨entry, he⟩ := exists_keymapEntry hrow S.world.modifiers
    refine ⟨{ S.driver with kbd := kbdAddBuf S.driver.kbd (.ofNat entry) }, ?_, rfl, hpressed,
      .inr ⟨count, entry, hphase, hroom, hentry entry he, rfl, ?_⟩⟩
    · unfold Meaning.handle
      rw [hpressed]
      dsimp only
      rw [if_neg hdel, he, hpressed]
    · dsimp only
      rw [he]
      rfl

end Code

/-! ### Whole runs -/

section Run

variable {S S' : System} {e : KbdEvent}

/-- The invariant: the keys stored so far stand at the start of the page, and `bufpos` is 0 outside
the loop. -/
structure Stored (S : System) : Prop where
  pressed : S.driver.pressed = S.world.modifiers
  idle : S.driver.phase = .idle → S.driver.kbd.bufpos = 0
  waiting : ∀ count, S.driver.phase = .waiting count →
    S.driver.kbd.bufpos = S.world.appended.length
  completed : ∀ count, S.driver.phase = .completed count →
    S.driver.kbd.bufpos = 0 ∧ count ≤ S.world.appended.length
  data : S.driver.phase ≠ .idle →
    (S.driver.kbd.data.load 0 S.world.appended.length).map UInt8.toNat = S.world.appended

/-- The next key stands behind the others. -/
theorem load_kbdAddBuf {kbd : Keyboard} {l : List ℕ} {entry : ℕ} (hlen : kbd.bufpos = l.length)
    (hdata : (kbd.data.load 0 l.length).map UInt8.toNat = l) (hentry : entry < 256) :
    ((kbdAddBuf kbd (.ofNat entry)).data.load 0 (l ++ [entry]).length).map UInt8.toNat =
      l ++ [entry] := by
  have hkeep : (kbdAddBuf kbd (.ofNat entry)).data.load 0 l.length = kbd.data.load 0 l.length := by
    refine Bytes.load_congr fun i hi => ?_
    exact Function.update_of_ne (by omega) _ _
  have hlast : (kbdAddBuf kbd (.ofNat entry)).data.load (0 + l.length) 1 = [.ofNat entry] := by
    show [Function.update kbd.data kbd.bufpos (UInt8.ofNat entry) (0 + l.length + 0)] = _
    rw [Nat.zero_add, Nat.add_zero, ← hlen, Function.update_self]
  rw [List.length_append, List.length_singleton, Bytes.load_add, hkeep, hlast,
    List.map_append, hdata, List.map_singleton, UInt8.toNat_ofNat_of_lt' hentry]

/-- At boot nothing is stored. -/
theorem Stored.boot (page : Bytes) : Stored (System.boot page) where
  pressed := rfl
  idle := fun _ => rfl
  waiting := nofun
  completed := nofun
  data := fun h => absurd rfl h

/-- An event that the driver handles as it should keeps the invariant. -/
theorem Stored.step (h : Stored S) (hfair : Fair S e) (hstep : S.Step e S') : Stored S' := by
  obtain ⟨hdriver, hworld⟩ := hstep
  obtain ⟨d', w'⟩ := S'
  dsimp only at hdriver hworld
  subst hworld
  cases e with
  | request count page =>
    simp only [DriverState.next] at hdriver
    split at hdriver
    · rename_i hphase
      cases hdriver
      exact ⟨h.pressed, nofun, fun _ _ => h.idle hphase, nofun, fun _ => rfl⟩
    · cases hdriver
  | check =>
    simp only [DriverState.next] at hdriver
    split at hdriver
    · rename_i count hphase
      split at hdriver
      · rename_i hdone
        cases hdriver
        rw [h.waiting count hphase] at hdone
        refine ⟨h.pressed, nofun, nofun, fun c hc => ?_, fun _ => h.data (by rw [hphase]; nofun)⟩
        cases hc
        exact ⟨rfl, hdone⟩
      · cases hdriver
        exact h
    · cases hdriver
  | reply =>
    simp only [DriverState.next] at hdriver
    split at hdriver
    · rename_i count hphase
      cases hdriver
      exact ⟨h.pressed, fun _ => (h.completed count hphase).1, nofun, nofun,
        fun hne => absurd rfl hne⟩
    · cases hdriver
  | interrupt code =>
    have hphase : S.driver.phase ≠ .idle := by
      intro hidle
      simp only [DriverState.next, hidle] at hdriver
      cases hdriver
    have hproc : kbdProcData (some code) S.driver = .ok d' := by
      simp only [DriverState.next] at hdriver
      exact Option.some.inj hdriver
    obtain ⟨d, hd, hdphase, hpressed, hkey⟩ := kbdProcData_spec h.pressed hfair
    rw [hproc] at hd
    cases hd
    rcases hkey with ⟨hkbd, happ⟩ | ⟨count, entry, hwait, -, hentry, hkbd, happ⟩
    · -- nothing is stored
      constructor
      · exact hpressed
      · exact fun hidle => absurd (hdphase ▸ hidle) hphase
      · intro c hc
        show d'.kbd.bufpos = (S.world.code code).appended.length
        rw [hkbd, happ]
        exact h.waiting c (hdphase ▸ hc)
      · intro c hc
        show d'.kbd.bufpos = 0 ∧ c ≤ (S.world.code code).appended.length
        rw [hkbd, happ]
        exact h.completed c (hdphase ▸ hc)
      · intro _
        show (d'.kbd.data.load 0 (S.world.code code).appended.length).map _ =
          (S.world.code code).appended
        rw [hkbd, happ]
        exact h.data hphase
    · -- one key more
      constructor
      · exact hpressed
      · exact fun hidle => absurd (hdphase ▸ hidle) hphase
      · intro c _
        show d'.kbd.bufpos = (S.world.code code).appended.length
        rw [hkbd, happ, List.length_append, ← h.waiting count hwait]
        rfl
      · intro c hc
        rw [show d'.phase = _ from hdphase, hwait] at hc
        cases hc
      · intro _
        show (d'.kbd.data.load 0 (S.world.code code).appended.length).map _ =
          (S.world.code code).appended
        rw [hkbd, happ]
        exact load_kbdAddBuf (h.waiting count hwait) (h.data hphase) hentry

/-- The decoder over whole runs: in every state that the driver and the keyboard reach by events
that the driver handles as it should, the characters stored are those of the keys, for the
modifiers that were held. -/
theorem decoded_of_run {page : Bytes} {es : List KbdEvent}
    (hrun : Run (guarded System.Step Fair) (System.boot page) es S) : Decoded S := by
  have h : Stored S :=
    hrun.invariant (fun _ _ _ hstep hs => hs.step hstep.1 hstep.2) (Stored.boot page)
  constructor
  · exact h.pressed
  · intro count hphase
    rw [h.waiting count hphase]
    exact h.data (by rw [hphase]; nofun)
  · intro count hphase
    obtain ⟨-, hcount⟩ := h.completed count hphase
    have hdata := h.data (by rw [hphase]; nofun)
    obtain ⟨k, hk⟩ := Nat.exists_eq_add_of_le (show count.toNat ≤ S.world.appended.length by omega)
    rw [hk, Bytes.load_add, List.map_append] at hdata
    have htake := congrArg (List.take count.toNat) hdata
    rwa [List.take_left' (by simp)] at htake
  · intro code hfair
    obtain ⟨d, hd, hphase, -, hkey⟩ := kbdProcData_spec h.pressed hfair
    refine ⟨d, hd, hphase, ?_⟩
    rcases hkey with ⟨hkbd, -⟩ | ⟨count, entry, hwait, hroom, -, hkbd, -⟩
    · exact .inl hkbd
    · exact .inr ⟨count, _, hwait, hroom, hkbd⟩

/-- The left shift key is down during a read. -/
def System.shifted (kbd : Keyboard) (phase : Phase) (appended : List ℕ) : System where
  driver := ⟨⟨true, false, false⟩, kbd, phase⟩
  world := ⟨.none, Function.update (fun _ => false) .leftShift true, appended⟩

/-- A read of one character during which the left shift key and the key `A` are pressed. -/
theorem decoded_of_run_shift : ∃ S, Run (guarded System.Step Fair) (System.boot fun _ => 0)
    [.request 1 fun _ => 0, .interrupt 0x2A, .interrupt 0x1E, .check] S ∧ Decoded S ∧
    S.driver.phase = .completed 1 ∧ S.world.appended = [chr 'A'] := by
  have hkey : Keyable (.shifted ⟨0, fun _ => 0⟩ (.waiting 1) []) 0x1E := by
    refine ⟨by decide, ?_, by decide, 1, rfl, by decide⟩
    intro entry hentry
    have hA : keymapEntry 0x1E ⟨true, false, false⟩ = some (chr 'A') := rfl
    rw [← Option.some.inj (hA.symm.trans hentry)]
    decide
  have h₁ : guarded System.Step Fair (.boot fun _ => 0) (.request 1 fun _ => 0)
      ⟨⟨⟨false, false, false⟩, ⟨0, fun _ => 0⟩, .waiting 1⟩, ⟨.none, fun _ => false, []⟩⟩ :=
    ⟨trivial, rfl, rfl⟩
  have h₂ : guarded System.Step Fair
      ⟨⟨⟨false, false, false⟩, ⟨0, fun _ => 0⟩, .waiting 1⟩, ⟨.none, fun _ => false, []⟩⟩
      (.interrupt 0x2A) (.shifted ⟨0, fun _ => 0⟩ (.waiting 1) []) := ⟨trivial, rfl, rfl⟩
  have h₃ : guarded System.Step Fair (.shifted ⟨0, fun _ => 0⟩ (.waiting 1) []) (.interrupt 0x1E)
      (.shifted (kbdAddBuf ⟨0, fun _ => 0⟩ (.ofNat (chr 'A'))) (.waiting 1) [chr 'A']) :=
    ⟨hkey, rfl, rfl⟩
  have h₄ : guarded System.Step Fair
      (.shifted (kbdAddBuf ⟨0, fun _ => 0⟩ (.ofNat (chr 'A'))) (.waiting 1) [chr 'A']) .check
      (.shifted ⟨0, Function.update (fun _ => 0) 0 (.ofNat (chr 'A'))⟩ (.completed 1) [chr 'A']) :=
    ⟨trivial, rfl, rfl⟩
  have hrun := Run.cons h₁ (.cons h₂ (.cons h₃ (.cons h₄ (.nil _))))
  exact ⟨_, hrun, decoded_of_run hrun, rfl, rfl⟩

/-- An event, if both return from it. -/
def System.exec (S : System) (e : KbdEvent) : Option System :=
  match S.driver.next e with
  | some (.ok d) => some ⟨d, S.world.next e⟩
  | _ => none

theorem System.run_of_exec {es : List KbdEvent} (h : es.foldlM System.exec S = some S') :
    Run System.Step S es S' := by
  refine (Run.of_foldlM h).mono fun S e S' hexec => ?_
  unfold System.exec at hexec
  split at hexec
  · rename_i d hd
    cases hexec
    exact ⟨hd, rfl⟩
  · cases hexec

/-- Three reads of one character that go wrong.  Both shift keys are pressed, one of them is
released, and `A` is stored as a small letter.  A key of row `0x57` is looked up behind the table.
Of two keys that come before the check the second is stored behind the byte that was asked for. -/
theorem not_decoded :
    (∃ S, Run System.Step (System.boot fun _ => 0) [.request 1 fun _ => 0, .interrupt 0x2A,
        .interrupt 0x36, .interrupt 0xAA, .interrupt 0x1E, .check] S ∧
      S.driver.phase = .completed 1 ∧ S.world.held .rightShift = true ∧
      S.driver.kbd.data.load 0 1 = [.ofNat (chr 'a')] ∧ S.world.appended = [chr 'A'] ∧
      ¬ Decoded S) ∧
    (∃ S, Run System.Step (System.boot fun _ => 0) [.request 1 fun _ => 0] S ∧
      S.driver.next (.interrupt 0x57) = some (.error (.outOfBounds 0x57))) ∧
    ∃ S, Run System.Step (System.boot fun _ => 0) [.request 1 fun _ => 0, .interrupt 0x1E,
        .interrupt 0x1F] S ∧
      S.driver.phase = .waiting 1 ∧ S.driver.kbd.bufpos = 2 ∧
      S.driver.kbd.data 1 = .ofNat (chr 's') := by
  refine ⟨⟨_, System.run_of_exec rfl, rfl, rfl, rfl, rfl, ?_⟩, ⟨_, System.run_of_exec rfl, rfl⟩,
    ⟨_, System.run_of_exec rfl, rfl, rfl, rfl⟩⟩
  intro h
  have hanswer := h.answer 1 rfl
  revert hanswer
  decide

end Run

/-! ### The loop as a function -/

section Loop

variable {count : ℕ} {d d' : DriverState} {es : List KbdEvent}

/-- A step while a read of `count` bytes is pending. -/
def DriverState.WaitStep (count : ℕ) (d : DriverState) (e : KbdEvent) (d' : DriverState) : Prop :=
  d.phase = .waiting count ∧ d.next e = some (.ok d')

/-- The handler stores at most one key and does not leave the loop. -/
theorem kbdProcData_kbd {code : UInt8} (h : kbdProcData (some code) d = .ok d') :
    d'.phase = d.phase ∧ (d'.kbd = d.kbd ∨ ∃ key, d'.kbd = kbdAddBuf d.kbd key) := by
  unfold kbdProcData at h
  dsimp only at h
  iterate 7
    split at h
    · cases h
      exact ⟨rfl, .inl rfl⟩
  split at h
  · cases h
  · split at h
    · cases h
      exact ⟨rfl, .inl rfl⟩
    · split at h
      · cases h
        exact ⟨rfl, .inr ⟨_, rfl⟩⟩
      · cases h

/-- One more key before the first check. -/
theorem wait_kbdAddBuf {keys : List (List UInt8)} {kbd kbd' : Keyboard} {key : UInt8}
    {stored : List UInt8}
    (h : waitForCompletedRequest count keys (kbdAddBuf kbd key) = some (kbd', stored)) :
    ∃ keys', waitForCompletedRequest count keys' kbd = some (kbd', key :: stored) := by
  cases keys with
  | nil => cases h
  | cons batch rest =>
    refine ⟨(key :: batch) :: rest, ?_⟩
    rw [waitForCompletedRequest] at h ⊢
    rw [List.foldl_cons]
    dsimp only at h ⊢
    split at h
    · rename_i hdone
      rw [if_pos hdone]
      cases h
      rfl
    · rename_i hdone
      rw [if_neg hdone]
      obtain ⟨⟨k, rest'⟩, hrest, heq⟩ := Option.map_eq_some_iff.mp h
      cases heq
      rw [hrest]
      rfl

/-- The steps of the driver from a request to the check that completes it are a call of
`wait_for_completed_request`. -/
theorem wait_of_run (hrun : Run (DriverState.WaitStep count) d es d')
    (hd : d.phase = .waiting count) (hd' : d'.phase = .completed count) :
    ∃ keys stored, waitForCompletedRequest count keys d.kbd = some (d'.kbd, stored) := by
  induction hrun with
  | nil d =>
    rw [hd] at hd'
    cases hd'
  | @cons d₀ d₁ d₂ e es hstep hrest ih =>
    obtain ⟨-, hnext⟩ := hstep
    cases e with
    | request c page =>
      simp only [DriverState.next, hd] at hnext
      cases hnext
    | reply =>
      simp only [DriverState.next, hd] at hnext
      cases hnext
    | interrupt code =>
      simp only [DriverState.next, hd] at hnext
      obtain ⟨hphase, hkbd⟩ := kbdProcData_kbd (Option.some.inj hnext)
      obtain ⟨keys, stored, hwait⟩ := ih (hphase.trans hd) hd'
      rcases hkbd with hkbd | ⟨key, hkbd⟩
      · rw [hkbd] at hwait
        exact ⟨keys, stored, hwait⟩
      · rw [hkbd] at hwait
        obtain ⟨keys', hwait'⟩ := wait_kbdAddBuf hwait
        exact ⟨keys', key :: stored, hwait'⟩
    | check =>
      simp only [DriverState.next, hd] at hnext
      split at hnext
      · rename_i hdone
        cases hnext
        cases hrest with
        | nil =>
          refine ⟨[[]], [], ?_⟩
          rw [waitForCompletedRequest, List.foldl_nil, if_pos (by exact_mod_cast hdone)]
        | cons hstep' _ => cases hstep'.1
      · rename_i hdone
        cases hnext
        obtain ⟨keys, stored, hwait⟩ := ih hd hd'
        refine ⟨[] :: keys, stored, ?_⟩
        rw [waitForCompletedRequest, List.foldl_nil, if_neg (by exact_mod_cast hdone), hwait]
        rfl

end Loop

end Savannah.CharDevice
