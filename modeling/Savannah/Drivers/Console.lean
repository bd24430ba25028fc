import Savannah.Foundation.Run

/-!
# The console

`drivers/console/console.c` writes characters to the text screen of the VGA, 25 lines of 80 cells of
16 bits: the character and its attribute.  The cursor may stand behind the last column; the next
character then goes to the next line.  When the cursor gets behind the last line, the lines are
moved up.

`Terminal` is a terminal as it should be, with its screen as a table of cells.  The console shows
what the terminal shows (`matches_of_run`) as long as its bytes are below 128 and the cursor starts
on the screen.  The driver passes bytes as `char`, which is signed, so that a byte from 128 on sets
all bits of the attribute; and scrolling puts the cursor into the first column, where a cursor that
`con_init` puts below the screen should keep its column.
-/

namespace Savannah.Vga

open Foundation

/-- `LINES` and `COLUMNS` -/
abbrev lines : ℕ := 25

@[inherit_doc lines]
abbrev columns : ℕ := 80

/-- `TAB_SIZE` -/
abbrev tabSize : ℕ := 8

/-- The variables of the driver and the cells from `SCR_START` on.  The cells that were written are
remembered, the last one first; `cursor` is the location in the registers of the VGA. -/
structure Console where
  x : ℕ
  y : ℕ
  vga : ℕ → BitVec 16
  writes : List ℕ
  cursor : ℕ

namespace Console

/-- Assigning a cell. -/
def poke (i : ℕ) (v : BitVec 16) (s : Console) : Console :=
  { s with vga := Function.update s.vga i v, writes := i :: s.writes }

/-- `con_cursor` -/
def conCursor (s : Console) : Console := { s with cursor := (s.y * columns + s.x) % 2 ^ 16 }

/-- `' ' | (0xF << 8)` -/
abbrev blankCell : BitVec 16 := 0xF20

/-- The first loop of `scroll`, after `n` iterations. -/
def moveUp (s : Console) : ℕ → Console
  | 0 => s
  | n + 1 => (s.moveUp n).poke n ((s.moveUp n).vga (n + columns))

/-- The second loop of `scroll`, after `n` iterations. -/
def clearLast (s : Console) : ℕ → Console
  | 0 => s
  | n + 1 => (s.clearLast n).poke ((lines - 1) * columns + n) blankCell

/-- `scroll` -/
def scroll (s : Console) : Console :=
  if s.y ≥ lines then
    { (s.moveUp ((lines - 1) * columns)).clearLast columns with y := lines - 1, x := 0 }
  else
    s

/-- `put_newline` -/
def putNewline (s : Console) : Console := scroll { s with x := 0, y := (s.y + 1) % 2 ^ 64 }

/-- `put_tab` -/
def putTab (s : Console) : Console := scroll { s with x := (s.x + tabSize) % 2 ^ 64 }

/-- `put_normal` -/
def putNormal (ch color : BitVec 32) (s : Console) : Console :=
  let s := if s.x ≥ columns then { s with x := 0, y := (s.y + 1) % 2 ^ 64 } else s
  let s := s.scroll
  let s := s.poke (s.y * columns + s.x) ((ch ||| color <<< 8).setWidth 16)
  { s with x := (s.x + 1) % 2 ^ 64 }

/-- `putc` -/
def putc (ch color : BitVec 32) (s : Console) : Console :=
  conCursor (if ch = 0x0A then s.putNewline
    else if ch = 0x09 then s.putTab
    else s.putNormal ch color)

/-- An iteration of the driver's loop over the bytes of a request: the byte is passed as a
`char`. -/
def putByte (s : Console) (b : UInt8) : Console := s.putc (b.toBitVec.signExtend 32) 0xF

/-- `con_init` -/
def conInit (xpos ypos : UInt32) (s : Console) : Console :=
  conCursor { s with y := ypos.toNat, x := xpos.toNat }

end Console

/-! ### The terminal -/

/-- A character and its attribute. -/
structure Cell where
  character : UInt8
  colour : UInt8
  deriving DecidableEq, Repr

/-- The cell as the screen has it. -/
def Cell.encode (c : Cell) : BitVec 16 := c.colour.toBitVec ++ c.character.toBitVec

/-- The cursor, and the cells by line and column. -/
structure Terminal where
  column : ℕ
  row : ℕ
  cells : ℕ → ℕ → Cell

namespace Terminal

/-- The lines are moved up by one, and the last one becomes blank, if the cursor has passed it. -/
def settle (t : Terminal) : Terminal :=
  if t.row > lines - 1 then
    { t with
      row := lines - 1
      cells := fun r c => if r < lines - 1 then t.cells (r + 1) c else ⟨0x20, 0xF⟩ }
  else
    t

def newline (t : Terminal) : Terminal := settle { t with column := 0, row := t.row + 1 }

def tab (t : Terminal) : Terminal := settle { t with column := t.column + tabSize }

/-- A character goes into the cell at the cursor, or to the next line if the line is full. -/
def character (t : Terminal) (b : UInt8) : Terminal :=
  let t := settle (if t.column ≥ columns then { t with column := 0, row := t.row + 1 } else t)
  { t with
    column := t.column + 1
    cells := Function.update t.cells t.row (Function.update (t.cells t.row) t.column ⟨b, 0xF⟩) }

def put (t : Terminal) (b : UInt8) : Terminal :=
  if b = 0x0A then t.newline else if b = 0x09 then t.tab else t.character b

end Terminal

/-! ### The screen and the terminal -/

/-- The screen shows the cells of the terminal. -/
def Shows (vga : ℕ → BitVec 16) (cells : ℕ → ℕ → Cell) : Prop :=
  ∀ r < lines, ∀ c < columns, vga (r * columns + c) = (cells r c).encode

/-- The cells that a screen shows. -/
def readCells (vga : ℕ → BitVec 16) (r c : ℕ) : Cell where
  character := ⟨(vga (r * columns + c)).extractLsb' 0 8⟩
  colour := ⟨(vga (r * columns + c)).extractLsb' 8 8⟩

/-- The console after `con_init`, on any screen. -/
def start (xpos ypos : UInt32) (vga : ℕ → BitVec 16) : Console :=
  Console.conInit xpos ypos ⟨0, 0, vga, [], 0⟩

/-- The terminal with the same cursor and the same screen. -/
def startTerminal (xpos ypos : UInt32) (vga : ℕ → BitVec 16) : Terminal :=
  ⟨xpos.toNat, ypos.toNat, readCells vga⟩

/-- After the bytes `bs` the screen shows the terminal that started as `t`, and no write has left
the screen. -/
structure Intact (t : Terminal) (bs : List UInt8) (s : Console) : Prop where
  shows_terminal : Shows s.vga (bs.foldl Terminal.put t).cells
  inside : ∀ i ∈ s.writes, i < lines * columns

/-- The driver handles a byte. -/
def Step (s : Console) (b : UInt8) (s' : Console) : Prop := s' = s.putByte b

/-- The byte is a character of 7 bits, the cursor is on the screen, and a tab does not make the
column overflow. -/
def Plain (s : Console) (b : UInt8) : Prop :=
  s.y < lines ∧ b < 128 ∧ (b = 0x09 → s.x + tabSize < 2 ^ 64)

/-! ### Scrolling -/

namespace Console

variable {s : Console}

/-- All writes so far were on the screen. -/
def Inside (s : Console) : Prop := ∀ i ∈ s.writes, i < lines * columns

/-- A store in the screen. -/
theorem Inside.poke (h : s.Inside) {i : ℕ} (hi : i < lines * columns) (v : BitVec 16) :
    (s.poke i v).Inside := List.forall_mem_cons.mpr ⟨hi, h⟩

/-- The first loop moves every line it reaches up by one. -/
theorem moveUp_vga (n : ℕ) :
    (s.moveUp n).vga = fun j => if j < n then s.vga (j + columns) else s.vga j := by
  induction n with
  | zero => rfl
  | succ n ih =>
    have hfrom : (s.moveUp n).vga (n + columns) = s.vga (n + columns) := by
      rw [ih]
      exact if_neg (by omega)
    funext j
    show Function.update (s.moveUp n).vga n ((s.moveUp n).vga (n + columns)) j = _
    rw [hfrom, ih]
    rcases lt_trichotomy j n with hlt | rfl | hgt
    · rw [Function.update_of_ne hlt.ne, if_pos hlt, if_pos (by omega)]
    · rw [Function.update_self, if_pos (Nat.lt_succ_self j)]
    · rw [Function.update_of_ne hgt.ne', if_neg (by omega), if_neg (by omega)]

theorem Inside.moveUp (h : s.Inside) {n : ℕ} (hn : n ≤ (lines - 1) * columns) :
    (s.moveUp n).Inside := by
  induction n with
  | zero => exact h
  | succ n ih =>
    refine (ih (by omega)).poke ?_ _
    norm_num at hn ⊢
    omega

/-- The second loop makes the last line blank. -/
theorem clearLast_vga (n : ℕ) :
    (s.clearLast n).vga = fun j => if (lines - 1) * columns ≤ j ∧ j < (lines - 1) * columns + n then
      blankCell else s.vga j := by
  induction n with
  | zero =>
    funext j
    exact (if_neg (by omega)).symm
  | succ n ih =>
    funext j
    show Function.update (s.clearLast n).vga ((lines - 1) * columns + n) blankCell j = _
    rw [ih]
    rcases eq_or_ne j ((lines - 1) * columns + n) with rfl | hne
    · rw [Function.update_self, if_pos (by omega)]
    · rw [Function.update_of_ne hne]
      exact if_congr (by omega) rfl rfl

theorem Inside.clearLast (h : s.Inside) {n : ℕ} (hn : n ≤ columns) : (s.clearLast n).Inside := by
  induction n with
  | zero => exact h
  | succ n ih =>
    refine (ih (by omega)).poke ?_ _
    norm_num at hn ⊢
    omega

-- The two loops are described by the lemmas above and never run.
attribute [irreducible] moveUp clearLast

/-- After scrolling the cursor is on the screen. -/
theorem scroll_cursor (hx : s.x < columns) : s.scroll.y < lines ∧ s.scroll.x < columns := by
  unfold scroll
  split_ifs with h
  · exact ⟨Nat.lt_succ_self 24, Nat.succ_pos 79⟩
  · exact ⟨not_le.mp h, hx⟩

/-- Scrolling stays in the screen. -/
theorem Inside.scroll (h : s.Inside) : s.scroll.Inside := by
  unfold Console.scroll
  split_ifs with hy
  · exact (h.moveUp le_rfl).clearLast le_rfl
  · exact h

/-- The cell at a cursor on the screen. -/
theorem index_lt {x y : ℕ} (hy : y < lines) (hx : x < columns) :
    y * columns + x < lines * columns := by
  have hy' : y < 25 := hy
  have hx' : x < 80 := hx
  show y * 80 + x < 2000
  omega

/-- Every byte is put on the screen, wherever the cursor is. -/
theorem Inside.putByte (h : s.Inside) (b : UInt8) : (s.putByte b).Inside := by
  have hnormal : ∀ ch color, (s.putNormal ch color).Inside := by
    intro ch color
    let t := if s.x ≥ columns then { s with x := 0, y := (s.y + 1) % 2 ^ 64 } else s
    have ht : t.Inside ∧ t.x < columns := by
      by_cases hx : s.x ≥ columns
      · rw [show t = { s with x := 0, y := (s.y + 1) % 2 ^ 64 } from if_pos hx]
        exact ⟨h, Nat.succ_pos 79⟩
      · rw [show t = s from if_neg hx]
        exact ⟨h, not_le.mp hx⟩
    obtain ⟨hy, hx⟩ := scroll_cursor ht.2
    exact (Inside.scroll ht.1).poke (index_lt hy hx) ((ch ||| color <<< 8).setWidth 16)
  show (if _ then _ else if _ then _ else _ : Console).Inside
  split_ifs
  · exact Inside.scroll h
  · exact Inside.scroll h
  · exact hnormal _ _

end Console

/-! ### The console and the terminal -/

/-- The console and the terminal agree on the cursor and on the screen. -/
structure Matches (s : Console) (t : Terminal) : Prop where
  x : s.x = t.column
  y : s.y = t.row
  cells : Shows s.vga t.cells

section Bytes

/-- The comparisons in `putc` see the byte. -/
theorem signExtend_eq_newline :
    ∀ v : BitVec 8, v.signExtend 32 = 0x0A ↔ v = 0x0A := by decide +kernel

theorem signExtend_eq_tab : ∀ v : BitVec 8, v.signExtend 32 = 0x09 ↔ v = 0x09 := by decide +kernel

/-- A byte of 7 bits is stored with the colour as it is. -/
theorem cell_of_lt : ∀ v : BitVec 8, v < 128 →
    (v.signExtend 32 ||| (0xF : BitVec 32) <<< 8).setWidth 16 = (0xF : BitVec 8) ++ v := by
  decide +kernel

end Bytes

namespace Matches

variable {s : Console} {t : Terminal}

/-- Scrolling; a cursor below the screen has to be in the first column. -/
theorem settle (h : Matches s t) (hx : s.y ≥ lines → s.x = 0) : Matches s.scroll t.settle := by
  unfold Console.scroll Terminal.settle
  by_cases hy : s.y ≥ lines
  · have hrow : t.row > lines - 1 := h.y ▸ hy
    rw [if_pos hy, if_pos hrow]
    refine ⟨(hx hy).symm.trans h.x, rfl, ?_⟩
    intro r hr c hc
    have hr' : r < 25 := hr
    have hc' : c < 80 := hc
    show ((s.moveUp _).clearLast _).vga (r * 80 + c) = _
    rw [Console.clearLast_vga, Console.moveUp_vga]
    dsimp only
    by_cases hlast : r < lines - 1
    · have hlast' : r < 24 := hlast
      rw [if_neg (by show ¬ (1920 ≤ _ ∧ _); omega), if_pos (by show _ < 1920; omega), if_pos hlast,
        ← h.cells (r + 1) (Nat.succ_lt_of_lt_pred hlast) c hc, Nat.succ_mul, Nat.add_right_comm]
    · have hlast' : ¬ r < 24 := hlast
      rw [if_pos (by show 1920 ≤ _ ∧ _ < 1920 + 80; omega), if_neg hlast]
      rfl
  · have hrow : ¬ t.row > lines - 1 := h.y ▸ hy
    rw [if_neg hy, if_neg hrow]
    exact h

/-- A cell at a cursor on the screen. -/
theorem poke (h : Matches s t) (hx : s.x < columns) {v : BitVec 16} {cell : Cell}
    (hv : v = cell.encode) :
    Shows (s.poke (s.y * columns + s.x) v).vga
      (Function.update t.cells t.row (Function.update (t.cells t.row) t.column cell)) := by
  intro r hr c hc
  have hx' : s.x < 80 := hx
  have hc' : c < 80 := hc
  show Function.update s.vga (s.y * 80 + s.x) v (r * 80 + c) = _
  rw [← h.y, ← h.x]
  by_cases hrow : r = s.y
  · subst hrow
    rw [Function.update_self]
    by_cases hcol : c = s.x
    · subst hcol
      rw [Function.update_self, Function.update_self, hv]
    · rw [Function.update_of_ne (by omega), Function.update_of_ne hcol]
      exact h.cells _ hr c hc
  · rw [Function.update_of_ne (by omega), Function.update_of_ne hrow]
    exact h.cells r hr c hc

/-- The cursor at the start of the next line. -/
theorem nextLine (h : Matches s t) (hy : s.y < lines) :
    Matches { s with x := 0, y := (s.y + 1) % 2 ^ 64 }
    { t with column := 0, row := t.row + 1 } := by
  have hy' : s.y < 25 := hy
  refine ⟨rfl, ?_, h.cells⟩
  show (s.y + 1) % 2 ^ 64 = t.row + 1
  rw [← h.y]
  omega

/-- A newline. -/
theorem newline (h : Matches s t) (hy : s.y < lines) : Matches s.putNewline t.newline :=
  (h.nextLine hy).settle fun _ => rfl

/-- A tab. -/
theorem tab (h : Matches s t) (hy : s.y < lines) (hx : s.x + tabSize < 2 ^ 64) :
    Matches s.putTab t.tab := by
  refine settle ⟨?_, h.y, h.cells⟩ fun hge => absurd hy (not_lt.mpr hge)
  show (s.x + tabSize) % 2 ^ 64 = t.column + tabSize
  rw [Nat.mod_eq_of_lt hx, h.x]

/-- Any other character. -/
theorem character (h : Matches s t) (hy : s.y < lines) {b : UInt8} (hb : b < 128) :
    Matches (s.putNormal (b.toBitVec.signExtend 32) 0xF) (t.character b) := by
  let s' := if s.x ≥ columns then { s with x := 0, y := (s.y + 1) % 2 ^ 64 } else s
  let t' := if t.column ≥ columns then { t with column := 0, row := t.row + 1 } else t
  have hwrap : Matches s' t' ∧ s'.x < columns ∧ (s'.y ≥ lines → s'.x = 0) := by
    by_cases hx : s.x ≥ columns
    · rw [show s' = { s with x := 0, y := (s.y + 1) % 2 ^ 64 } from if_pos hx,
        show t' = { t with column := 0, row := t.row + 1 } from if_pos (h.x ▸ hx)]
      exact ⟨h.nextLine hy, Nat.succ_pos 79, fun _ => rfl⟩
    · rw [show s' = s from if_neg hx, show t' = t from if_neg (h.x ▸ hx)]
      exact ⟨h, not_le.mp hx, fun hge => absurd hy (not_lt.mpr hge)⟩
  obtain ⟨hmatch, hx, hcolumn⟩ := hwrap
  have hsettled := hmatch.settle hcolumn
  have hx' : s'.scroll.x < 80 := (Console.scroll_cursor hx).2
  refine ⟨?_, hsettled.y, hsettled.poke hx' (cell_of_lt b.toBitVec hb)⟩
  show (s'.scroll.x + 1) % 2 ^ 64 = t'.settle.column + 1
  rw [← hsettled.x]
  omega

/-- A plain byte. -/
theorem putByte (h : Matches s t) {b : UInt8} (hb : Plain s b) :
    Matches (s.putByte b) (t.put b) := by
  obtain ⟨hy, hlt, htab⟩ := hb
  have hnewline : b.toBitVec.signExtend 32 = 0x0A ↔ b = 0x0A :=
    (signExtend_eq_newline b.toBitVec).trans UInt8.toBitVec_inj
  have htabs : b.toBitVec.signExtend 32 = 0x09 ↔ b = 0x09 :=
    (signExtend_eq_tab b.toBitVec).trans UInt8.toBitVec_inj
  have hcursor : ∀ {c : Console} {u : Terminal}, Matches c u → Matches c.conCursor u :=
    fun h => ⟨h.x, h.y, h.cells⟩
  refine hcursor ?_
  unfold Terminal.put
  by_cases h₁ : b = 0x0A
  · rw [if_pos (hnewline.mpr h₁), if_pos h₁]
    exact h.newline hy
  rw [if_neg (hnewline.not.mpr h₁), if_neg h₁]
  by_cases h₂ : b = 0x09
  · rw [if_pos (htabs.mpr h₂), if_pos h₂]
    exact h.tab hy (htab h₂)
  rw [if_neg (htabs.not.mpr h₂), if_neg h₂]
  exact h.character hy hlt

end Matches

/-! ### Whole runs -/

section Runs

variable {xpos ypos : UInt32} {vga : ℕ → BitVec 16} {bs : List UInt8} {s : Console}

/-- At the start they agree. -/
theorem matches_start : Matches (start xpos ypos vga) (startTerminal xpos ypos vga) := by
  refine ⟨rfl, rfl, ?_⟩
  intro r _ c _
  show vga (r * columns + c) =
    (vga (r * columns + c)).extractLsb' 8 8 ++ (vga (r * columns + c)).extractLsb' 0 8
  generalize vga (r * columns + c) = v
  ext i hi
  grind

/-- Whatever is put, no write leaves the screen. -/
theorem inside_of_run (hrun : Run Step (start xpos ypos vga) bs s) : s.Inside := by
  refine hrun.invariant ?_ fun _ hi => absurd hi List.not_mem_nil
  rintro s b _ rfl hs
  exact hs.putByte b

/-- A run of plain bytes follows the terminal. -/
theorem matches_of_run {s₀ : Console} (hrun : Run (guarded Step Plain) s₀ bs s) :
    ∀ t, Matches s₀ t → Matches s (bs.foldl Terminal.put t) := by
  induction hrun with
  | nil s => exact fun t h => h
  | cons hstep _ ih =>
    intro t h
    obtain ⟨hplain, rfl⟩ := hstep
    exact ih (t.put _) (h.putByte hplain)

/-- In every run of plain bytes the screen shows what the terminal shows, and no write leaves it. -/
theorem intact_of_run (hrun : Run (guarded Step Plain) (start xpos ypos vga) bs s) :
    Intact (startTerminal xpos ypos vga) bs s :=
  ⟨(matches_of_run hrun _ matches_start).cells, inside_of_run (hrun.mono fun _ _ _ h => h.2)⟩

end Runs

/-- Three bytes at the end of the last line: the screen is scrolled for the second one. -/
theorem intact_last_line : ∃ s,
    Run (guarded Step Plain) (start 79 24 fun _ => 0) [0x41, 0x42, 0x09] s ∧
      Intact (startTerminal 79 24 fun _ => 0) [0x41, 0x42, 0x09] s := by
  have hrun : ∃ s, Run (guarded Step Plain) (start 79 24 fun _ => 0) [0x41, 0x42, 0x09] s := by
    refine ⟨_, .cons ⟨⟨?_, ?_, ?_⟩, rfl⟩ (.cons ⟨⟨?_, ?_, ?_⟩, rfl⟩
      (.cons ⟨⟨?_, ?_, ?_⟩, rfl⟩ (.nil _)))⟩
    all_goals decide +kernel
  obtain ⟨s, hrun⟩ := hrun
  exact ⟨s, hrun, intact_of_run hrun⟩

/-- A byte from 128 on, on an empty screen: its attribute is `0xFF`. -/
theorem not_intact_high_byte : ∃ s, Run Step (start 0 0 fun _ => 0) [0x80] s ∧
    ¬ Intact (startTerminal 0 0 fun _ => 0) [0x80] s := by
  refine ⟨_, .cons rfl (.nil _), ?_⟩
  intro h
  have hcell := h.shows_terminal 0 (by norm_num) 0 (by norm_num)
  exact absurd hcell (by decide +kernel)

end Savannah.Vga
