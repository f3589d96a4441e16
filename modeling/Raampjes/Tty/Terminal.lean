import Raampjes.Tty.Vga

/-!
# The contents of the screen

A reference terminal of 25 rows and 80 columns, and what the cells of video memory hold instead of it.

- `Terminal`: the reference; each cell knows whether it is blank since `init_vga`, blank in a row that a shift brought in,
  or a character;
- `scrollBelow_mem`: the overlapping copy; `Shows`: video memory as a function of the reference, kept by every character
  (`shows_putchar`);
- `screen_iff`: when the screen is the one of the reference.
-/

namespace Raampjes.Vga

/-! ## The reference -/

inductive Cell
  /-- Blank since the start. -/
  | blank
  /-- Blank in a row that a shift brought in. -/
  | fresh
  | char (c : UInt8)

/-- Low byte and attribute byte of a cell. -/
def Cell.entry : Cell → UInt16
  | .char c => 0x0F00 ||| c.toUInt16
  | _ => 0x0F00 ||| 0x20

structure Terminal where
  row : Nat
  col : Nat
  cell : Nat → Nat → Cell

namespace Terminal

def clear : Terminal := ⟨0, 0, fun _ _ => .blank⟩

/-- Every row one up. -/
def shift (t : Terminal) : Terminal := { t with cell := fun r c => if r < 24 then t.cell (r + 1) c else .fresh }

/-- The start of the next row. -/
def nextRow (t : Terminal) : Terminal :=
  if t.row + 1 < 25 then { t with row := t.row + 1, col := 0 } else { t.shift with row := 24, col := 0 }

/-- A character at the cursor. -/
def place (t : Terminal) (c : UInt8) : Terminal :=
  { t with cell := fun r k => if r = t.row ∧ k = t.col then .char c else t.cell r k }

def write (t : Terminal) (c : UInt8) : Terminal :=
  if c = 10 then t.nextRow
  else if t.col + 1 < 80 then { t.place c with col := t.col + 1 }
  else (t.place c).nextRow

def writes (cs : List UInt8) : Terminal := cs.foldl write clear

end Terminal

/-! ## Video memory -/

/-- What video memory holds for a cell of the reference in column `c`, over the memory `mem` at the start. -/
def render (mem : Int → UInt16) (c : Nat) : Cell → UInt16
  | .blank => vgaEntry 32
  | .fresh => mem (2000 + c)
  | .char ch => vgaEntry ch

/-- Cell `c` of row `r`. -/
def cellIndex (r c : Nat) : Int := r * 80 + c

@[simp] theorem moveCursor_x (x y : Int) (v : Screen) : (moveCursor x y v).x = v.x := rfl

@[simp] theorem moveCursor_y (x y : Int) (v : Screen) : (moveCursor x y v).y = v.y := rfl

@[simp] theorem moveCursor_mem (x y : Int) (v : Screen) : (moveCursor x y v).mem = v.mem := rfl

theorem clrBelow_mem (n : Nat) (v : Screen) (i : Int) :
    (clrBelow n v).mem i = if 0 ≤ i ∧ i < n then vgaEntry 32 else v.mem i := by
  induction n with
  | zero =>
    rw [if_neg (by omega)]
    rfl
  | succ n ih =>
    rw [clrBelow, Screen.store]
    dsimp only
    by_cases hi : i = n
    · rw [hi, Function.update_self, if_pos (by omega)]
    · rw [Function.update_of_ne hi, ih]
      by_cases hlt : 0 ≤ i ∧ i < n
      · rw [if_pos hlt, if_pos (by omega)]
      · rw [if_neg hlt, if_neg (by omega)]

/-- **The overlapping copy**: a cell is read before it is overwritten. -/
theorem scrollBelow_mem (n : Nat) (v : Screen) (i : Int) :
    (scrollBelow n v).mem i = if 0 ≤ i ∧ i < n then v.mem (i + 80) else v.mem i := by
  induction n generalizing i with
  | zero =>
    rw [if_neg (by omega)]
    rfl
  | succ n ih =>
    rw [scrollBelow, Screen.store, VGA_WIDTH]
    dsimp only
    by_cases hi : i = n
    · rw [hi, Function.update_self, ih, if_neg (by omega), if_pos (by omega)]
    · rw [Function.update_of_ne hi, ih]
      by_cases hlt : 0 ≤ i ∧ i < n
      · rw [if_pos hlt, if_pos (by omega)]
      · rw [if_neg hlt, if_neg (by omega)]

theorem scrollDown_mem (v : Screen) (i : Int) :
    (scrollDown v).mem i = if 0 ≤ i ∧ i < 2000 then v.mem (i + 80) else v.mem i := scrollBelow_mem 2000 v i

/-- Video memory shows the terminal: the cursor, the cells, and the memory past the screen as it was. -/
structure Shows (mem : Int → UInt16) (v : Screen) (t : Terminal) : Prop where
  x : v.x = t.col
  y : v.y = t.row
  col_lt : t.col < 80
  row_lt : t.row < 25
  cells : ∀ r c, r < 25 → c < 80 → v.mem (cellIndex r c) = render mem c (t.cell r c)
  past : ∀ i, 2000 ≤ i → v.mem i = mem i

section Shows

variable {mem : Int → UInt16} {v : Screen} {t : Terminal} {ch : UInt8} {depth : Nat}

theorem cellIndex_inj {r c r' c' : Nat} (hc : c < 80) (hc' : c' < 80) (h : cellIndex r c = cellIndex r' c') :
    r = r' ∧ c = c' := by
  rw [cellIndex, cellIndex] at h
  omega

theorem cellIndex_lt {r c : Nat} (hr : r < 25) (hc : c < 80) : 0 ≤ cellIndex r c ∧ cellIndex r c < 2000 := by
  rw [cellIndex]
  omega

/-- `init_vga`. -/
theorem shows_init (v : Screen) : Shows v.mem (initVga v) .clear := by
  have hmem : ∀ i, (initVga v).mem i = if 0 ≤ i ∧ i < 2000 then vgaEntry 32 else v.mem i := by
    intro i
    rw [initVga, clrScreen, moveCursor_mem, clrBelow_mem]
    rfl
  have hpos : ∀ n (u : Screen), (clrBelow n u).x = u.x ∧ (clrBelow n u).y = u.y := by
    intro n u
    induction n with
    | zero => exact ⟨rfl, rfl⟩
    | succ n ih => exact ih
  refine ⟨?_, ?_, by decide, by decide, ?_, ?_⟩
  · rw [initVga, clrScreen, moveCursor_x, (hpos _ _).1]
    rfl
  · rw [initVga, clrScreen, moveCursor_y, (hpos _ _).2]
    rfl
  · intro r c hr hc
    rw [hmem, if_pos (cellIndex_lt hr hc)]
    rfl
  · intro i hi
    rw [hmem, if_neg (by omega)]

/-- A character is placed. -/
theorem Shows.place (h : Shows mem v t) (ch : UInt8) : Shows mem (v.store v.index (vgaEntry ch)) (t.place ch) := by
  have hindex : v.index = cellIndex t.row t.col := by rw [Screen.index, h.x, h.y, cellIndex, VGA_WIDTH]
  refine ⟨h.x, h.y, h.col_lt, h.row_lt, ?_, ?_⟩
  · intro r c hr hc
    rw [Screen.store, hindex, Terminal.place]
    dsimp only
    by_cases hat : r = t.row ∧ c = t.col
    · rw [if_pos hat, hat.1, hat.2, Function.update_self]
      rfl
    · have hne : cellIndex r c ≠ cellIndex t.row t.col := fun he => hat (cellIndex_inj hc h.col_lt he)
      rw [if_neg hat, Function.update_of_ne hne]
      exact h.cells r c hr hc
  · intro i hi
    have hlt := (cellIndex_lt h.row_lt h.col_lt).2
    rw [Screen.store, hindex]
    dsimp only
    rw [Function.update_of_ne (by omega)]
    exact h.past i hi

theorem Shows.moveCursor (h : Shows mem v t) (x y : Int) : Shows mem (moveCursor x y v) t :=
  ⟨h.x, h.y, h.col_lt, h.row_lt, h.cells, h.past⟩

/-- The memory after a scroll. -/
theorem Shows.scroll (h : Shows mem v t) : ∀ r c, r < 25 → c < 80 →
    (scrollDown v).mem (cellIndex r c) = render mem c (t.shift.cell r c) := by
  intro r c hr hc
  have hnext : cellIndex r c + 80 = cellIndex (r + 1) c := by
    rw [cellIndex, cellIndex]
    push_cast
    ring
  rw [scrollDown_mem, if_pos (cellIndex_lt hr hc), hnext, Terminal.shift]
  dsimp only
  by_cases hlast : r < 24
  · rw [if_pos hlast]
    exact h.cells (r + 1) c (by omega) hc
  · -- the last row comes from memory past the screen
    obtain rfl : r = 24 := by omega
    rw [if_neg hlast, h.past _ (by rw [cellIndex]; omega), render]
    congr 1

/-- The end of `vga_putchar` when the cursor has gone to the next row. -/
theorem Shows.nextRow {u : Screen} (h : Shows mem v t) (hu : u.mem = v.mem)
    (hxy : u.x = 0 ∧ u.y = t.row + 1 ∨ u.x = 80 ∧ u.y = t.row) : Shows mem (settle u) t.nextRow := by
  have hrow := h.row_lt
  have hwrap : (if VGA_WIDTH ≤ u.x then { u with x := 0, y := u.y + 1 } else u) = { u with x := 0, y := t.row + 1 } := by
    rcases hxy with ⟨hx, hy⟩ | ⟨hx, hy⟩
    · rw [if_neg (by rw [hx]; decide), ← hx, ← hy]
    · rw [if_pos (by rw [hx]; decide), hy]
  have hpast : ∀ i, 2000 ≤ i → u.mem i = mem i := fun i hi => by rw [hu]; exact h.past i hi
  have hshow : Shows mem { u with x := 0, y := t.row } { t with col := 0 } :=
    ⟨rfl, rfl, Nat.succ_pos 79, hrow, fun r c hr hc => by rw [← h.cells r c hr hc]; exact congrFun hu _, hpast⟩
  have hpos : ∀ n (u : Screen), (scrollBelow n u).x = u.x ∧ (scrollBelow n u).y = u.y := by
    intro n u
    induction n with
    | zero => exact ⟨rfl, rfl⟩
    | succ n ih => exact ih
  rw [settle, hwrap, Terminal.nextRow]
  dsimp only
  apply Shows.moveCursor
  by_cases hlast : t.row + 1 < 25
  · rw [if_pos hlast, if_neg (by rw [VGA_HEIGTH]; omega)]
    exact ⟨rfl, by push_cast; rfl, Nat.succ_pos 79, hlast, hshow.cells, hpast⟩
  · have h24 : (t.row : Int) + 1 - 1 = t.row := by ring
    rw [if_neg hlast, if_pos (by rw [VGA_HEIGTH]; omega), h24]
    refine ⟨(hpos 2000 _).1, ?_, Nat.succ_pos 79, Nat.lt_succ_self 24, hshow.scroll, ?_⟩
    · rw [show (24 : Nat) = t.row by omega]
      exact (hpos 2000 _).2
    · intro i hi
      rw [scrollDown_mem, if_neg (by omega)]
      exact hpast i hi

/-- The end of `vga_putchar` when the cursor stays in its row. -/
theorem Shows.stay {u : Screen} (h : Shows mem v t) (hu : u.mem = v.mem) (hx : u.x = t.col + 1) (hy : u.y = t.row)
    (hlt : t.col + 1 < 80) : Shows mem (settle u) { t with col := t.col + 1 } := by
  have hcol : ¬ VGA_WIDTH ≤ u.x := by
    rw [VGA_WIDTH, hx]
    omega
  have hrow : ¬ VGA_HEIGTH ≤ u.y := by
    rw [VGA_HEIGTH, hy]
    have := h.row_lt
    omega
  simp only [settle, if_neg hcol, if_neg hrow]
  apply Shows.moveCursor
  refine ⟨by rw [hx]; push_cast; rfl, hy, hlt, h.row_lt, fun r c hr hc => ?_, fun i hi => ?_⟩
  · rw [hu]
    exact h.cells r c hr hc
  · rw [hu]
    exact h.past i hi

/-- **One character.** -/
theorem shows_putchar (h : Shows mem v t) (h8 : ch ≠ 8) (h9 : ch ≠ 9) :
    ∃ v', vgaPutchar (depth + 1) ch v = some v' ∧ Shows mem v' (t.write ch) := by
  rw [vgaPutchar, Terminal.write]
  by_cases h10 : ch = 10
  · rw [if_pos h10, if_pos h10]
    exact ⟨_, rfl, h.nextRow rfl (Or.inl ⟨rfl, by rw [h.y]⟩)⟩
  · rw [if_neg h10, if_neg h8, if_neg h9, if_neg h10]
    refine ⟨_, rfl, ?_⟩
    have hp := h.place ch
    have hcol := h.col_lt
    by_cases hwrap : t.col + 1 < 80
    · rw [if_pos hwrap]
      refine hp.stay rfl ?_ h.y hwrap
      show v.x + 1 = t.col + 1
      rw [h.x]
    · rw [if_neg hwrap]
      refine hp.nextRow rfl (Or.inr ⟨?_, h.y⟩)
      show v.x + 1 = 80
      rw [h.x]
      omega

/-- **Every sequence of characters** is printed, and video memory shows the terminal. -/
theorem shows_putchars (h : Shows mem v t) (cs : List UInt8) (hcs : ∀ c ∈ cs, c ≠ 8 ∧ c ≠ 9) :
    ∃ v', putchars (depth + 1) cs v = some v' ∧ Shows mem v' (cs.foldl Terminal.write t) := by
  induction cs generalizing v t with
  | nil => exact ⟨v, rfl, h⟩
  | cons c cs ih =>
    obtain ⟨h8, h9⟩ := hcs c List.mem_cons_self
    obtain ⟨u, hu, hs⟩ := @shows_putchar mem v t c depth h h8 h9
    obtain ⟨v', hv', hs'⟩ := ih hs fun c hc => hcs c (List.mem_cons_of_mem _ hc)
    refine ⟨v', ?_, hs'⟩
    rw [putchars, putString, hu]
    exact hv'

end Shows

/-! ## When the screen is right -/

/-- Video memory holds what the reference has: a character below 0x80, or a blank that the memory past the screen
brought in. -/
def Cell.Faithful (mem : Int → UInt16) (c : Nat) : Cell → Prop
  | .blank => True
  | .fresh => mem (2000 + c) = 0x0F20
  | .char ch => ch < 0x80

/-- The sign of a `char` reaches the attribute byte. -/
theorem vgaEntry_eq_iff (ch : UInt8) : vgaEntry ch = 0x0F00 ||| ch.toUInt16 ↔ ch < 0x80 := by
  have hall : ∀ n : Fin 256, vgaEntry (UInt8.ofFin n) = 0x0F00 ||| (UInt8.ofFin n).toUInt16 ↔ UInt8.ofFin n < 0x80 := by
    decide +kernel
  exact hall ch.toFin

theorem render_eq_iff (mem : Int → UInt16) (c : Nat) (cell : Cell) :
    render mem c cell = cell.entry ↔ cell.Faithful mem c := by
  cases cell with
  | blank =>
    have hblank : vgaEntry 32 = 0x0F00 ||| 0x20 := by decide
    exact ⟨fun _ => trivial, fun _ => hblank⟩
  | fresh => exact Iff.rfl
  | char ch => exact vgaEntry_eq_iff ch

/-- The screen is the one of the reference. -/
def Agrees (v : Screen) (t : Terminal) : Prop :=
  v.x = t.col ∧ v.y = t.row ∧ ∀ r c, r < 25 → c < 80 → v.mem (cellIndex r c) = (t.cell r c).entry

theorem Shows.agrees_iff {mem : Int → UInt16} {v : Screen} {t : Terminal} (h : Shows mem v t) :
    Agrees v t ↔ ∀ r c, r < 25 → c < 80 → (t.cell r c).Faithful mem c := by
  constructor
  · rintro ⟨_, _, hcells⟩ r c hr hc
    rw [← render_eq_iff, ← h.cells r c hr hc]
    exact hcells r c hr hc
  · intro hf
    refine ⟨h.x, h.y, fun r c hr hc => ?_⟩
    rw [h.cells r c hr hc, render_eq_iff]
    exact hf r c hr hc

/-- **The contents of the screen.** After `init_vga` over any video memory, every sequence of characters but backspace
and tab is printed, and the screen is the one of the reference just if each cell of the reference is faithful. -/
theorem screen_iff (depth : Nat) (mem : Int → UInt16) (cs : List UInt8) (hcs : ∀ c ∈ cs, c ≠ 8 ∧ c ≠ 9) :
    ∃ v, putchars (depth + 1) cs (initVga ⟨0, 0, mem, [], []⟩) = some v ∧
      (Agrees v (.writes cs) ↔ ∀ r c, r < 25 → c < 80 → ((Terminal.writes cs).cell r c).Faithful mem c) := by
  obtain ⟨v, hv, hs⟩ := @shows_putchars mem _ _ depth (shows_init ⟨0, 0, mem, [], []⟩) cs hcs
  exact ⟨v, hv, hs.agrees_iff⟩

theorem screen_iff_hi : ∃ v, putchars 1 [72, 105] (initVga ⟨0, 0, fun _ => 0, [], []⟩) = some v ∧
    Agrees v (.writes [72, 105]) := by
  obtain ⟨v, hv, hiff⟩ := screen_iff 0 (fun _ => 0) [72, 105] (by simp)
  refine ⟨v, hv, hiff.mpr fun r c _ _ => ?_⟩
  by_cases h1 : r = 0 ∧ c = 1
  · obtain ⟨rfl, rfl⟩ := h1
    show (105 : UInt8) < 0x80
    decide
  by_cases h0 : r = 0 ∧ c = 0
  · obtain ⟨rfl, rfl⟩ := h0
    show (72 : UInt8) < 0x80
    decide
  · have hcell : (Terminal.writes [72, 105]).cell r c =
        if r = 0 ∧ c = 1 then .char 105 else if r = 0 ∧ c = 0 then .char 72 else .blank := rfl
    rw [hcell, if_neg h1, if_neg h0]
    trivial

/-- A character above 0x7F. -/
theorem screen_not_reference : ∃ v, putchars 1 [0x80] (initVga ⟨0, 0, fun _ => 0, [], []⟩) = some v ∧
    ¬ Agrees v (.writes [0x80]) := by
  obtain ⟨v, hv, hs⟩ := @shows_putchars (fun _ => 0) _ _ 0 (shows_init ⟨0, 0, fun _ => 0, [], []⟩) [0x80] (by simp)
  refine ⟨v, hv, fun hagrees => ?_⟩
  have hlt : (0x80 : UInt8) < 0x80 := hs.agrees_iff.mp hagrees 0 0 (by decide) (by decide)
  exact absurd hlt (by decide)

end Raampjes.Vga
