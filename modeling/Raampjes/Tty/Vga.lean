import Mathlib

/-!
# The text screen

`vga.c`: the cursor, the cells at `vga_memory_address` with a log of the indices written, and `kprintf`, which
`vga_putchar` re-enters for a tab, with the format `%s`. The nesting of the two is bounded by a depth; `none` is a depth
exceeded.

- `Bounded`: the cursor is on the screen and every index ever written is one of its cells;
- `keeps_bounded`: no call of `vga_putchar` or `kprintf` leaves `Bounded`, at any depth;
- `vgaPutchar_returns`: `vga_putchar` returns at depth 3;
- `cursor_bounds`: both, for every sequence of characters after `init_vga`.
-/

namespace Raampjes.Vga

def VGA_WIDTH : Int := 80

def VGA_HEIGTH : Int := 25

/-- The static variables, the cells, the indices written and the bytes sent to the CRT controller. -/
structure Screen where
  x : Int
  y : Int
  mem : Int → UInt16
  writes : List Int
  ports : List (Nat × UInt8)

/-! ## Cells -/

/-- A signed `char` is extended to the 16 bits of a cell. -/
def vgaEntry (character : UInt8) : UInt16 := character.toInt8.toInt16.toUInt16 ||| ((0xF : UInt16) <<< 8)

/-- `vga_memory_address[index] = entry`. -/
def Screen.store (v : Screen) (index : Int) (entry : UInt16) : Screen :=
  { v with mem := Function.update v.mem index entry, writes := v.writes ++ [index] }

def byteOf (n : Int) : UInt8 := UInt8.ofNat (n % 256).toNat

def moveCursor (x y : Int) (v : Screen) : Screen :=
  let index := y * VGA_WIDTH + x
  { v with ports := v.ports ++ [(0x3d4, 14), (0x3d5, byteOf (index >>> 8)), (0x3d4, 15), (0x3d5, byteOf index)] }

/-- The loop of `clr_screen` over the first `n` cells. -/
def clrBelow : Nat → Screen → Screen
  | 0, v => v
  | n + 1, v => (clrBelow n v).store n (vgaEntry 32)

def clrScreen (v : Screen) : Screen := moveCursor 0 0 (clrBelow (VGA_WIDTH * VGA_HEIGTH).toNat v)

def initVga (v : Screen) : Screen := clrScreen { v with x := 0, y := 0 }

/-- `memcpy` by ascending cells from one row further down. -/
def scrollBelow : Nat → Screen → Screen
  | 0, v => v
  | n + 1, v =>
    let v := scrollBelow n v
    v.store n (v.mem (n + VGA_WIDTH))

def scrollDown (v : Screen) : Screen := scrollBelow (VGA_WIDTH * VGA_HEIGTH).toNat v

/-! ## Characters -/

/-- The loop of `%s`. -/
def putString (putchar : UInt8 → Screen → Option Screen) : List UInt8 → Screen → Option Screen
  | [], v => some v
  | c :: s, v => (putchar c v).bind (putString putchar s)

/-- The corrections at the end of `vga_putchar`: wrap, scroll, move the cursor. -/
def settle (v : Screen) : Screen :=
  let v := if VGA_WIDTH ≤ v.x then { v with x := 0, y := v.y + 1 } else v
  let v := if VGA_HEIGTH ≤ v.y then scrollDown { v with x := 0, y := v.y - 1 } else v
  moveCursor v.x v.y v

/-- The step back of a backspace. -/
def stepBack (v : Screen) : Screen :=
  if v.x = 0 then
    { v with x := VGA_WIDTH - 1, y := if v.y = 0 then VGA_HEIGTH - 1 else v.y - 1 }
  else { v with x := v.x - 1 }

/-- The cell under the cursor. -/
def Screen.index (v : Screen) : Int := v.y * VGA_WIDTH + v.x

mutual

def vgaPutchar : Nat → UInt8 → Screen → Option Screen
  | 0, _, _ => none
  | depth + 1, c, v =>
    if c = 10 then some (settle { v with x := 0, y := v.y + 1 })
    else if c = 8 then
      let v := stepBack v
      some (settle (v.store v.index (vgaEntry 32)))
    else if c = 9 then
      -- `kprintf("%s", ...)` has moved the cursor and corrected it already.
      (kprintf depth (if v.x.tmod 2 = 0 then [32, 32] else [32]) v).map settle
    else
      let v := v.store v.index (vgaEntry c)
      some (settle { v with x := v.x + 1 })

/-- `kprintf("%s", s)`. -/
def kprintf : Nat → List UInt8 → Screen → Option Screen
  | 0, _, _ => none
  | depth + 1, s, v => putString (vgaPutchar depth) s v

end

/-- One call of `vga_putchar` for each character. -/
def putchars (depth : Nat) (cs : List UInt8) (v : Screen) : Option Screen := putString (vgaPutchar depth) cs v

/-! ## Bounds -/

/-- Only cells of the screen were written. -/
def Inside (v : Screen) : Prop := ∀ i ∈ v.writes, 0 ≤ i ∧ i < VGA_WIDTH * VGA_HEIGTH

/-- The cursor is on the screen, and only cells of the screen were written. -/
structure Bounded (v : Screen) : Prop where
  x_nonneg : 0 ≤ v.x
  x_lt : v.x < VGA_WIDTH
  y_nonneg : 0 ≤ v.y
  y_lt : v.y < VGA_HEIGTH
  inside : Inside v

@[simp] theorem store_x (v : Screen) (i : Int) (e : UInt16) : (v.store i e).x = v.x := rfl

@[simp] theorem store_y (v : Screen) (i : Int) (e : UInt16) : (v.store i e).y = v.y := rfl

theorem store_inside {v : Screen} {i : Int} (e : UInt16) (h : Inside v) (hi : 0 ≤ i)
    (hlt : i < VGA_WIDTH * VGA_HEIGTH) : Inside (v.store i e) := by
  intro j hj
  rcases List.mem_append.mp hj with hj | hj
  · exact h j hj
  · rw [List.mem_singleton.mp hj]
    exact ⟨hi, hlt⟩

/-- The cell under the cursor is a cell of the screen. -/
theorem Bounded.index {v : Screen} (h : Bounded v) : 0 ≤ v.index ∧ v.index < VGA_WIDTH * VGA_HEIGTH := by
  obtain ⟨hx, hx', hy, hy', _⟩ := h
  simp only [Screen.index, VGA_WIDTH, VGA_HEIGTH] at *
  omega

theorem Bounded.store {v : Screen} (h : Bounded v) (e : UInt16) : Bounded (v.store v.index e) :=
  ⟨h.x_nonneg, h.x_lt, h.y_nonneg, h.y_lt, store_inside e h.inside h.index.1 h.index.2⟩

theorem clrBelow_spec (n : Nat) (v : Screen) (hn : (n : Int) ≤ VGA_WIDTH * VGA_HEIGTH) (h : Inside v) :
    (clrBelow n v).x = v.x ∧ (clrBelow n v).y = v.y ∧ Inside (clrBelow n v) := by
  induction n with
  | zero => exact ⟨rfl, rfl, h⟩
  | succ n ih =>
    push_cast at hn
    obtain ⟨hx, hy, hin⟩ := ih (by omega)
    exact ⟨hx, hy, store_inside _ hin (by omega) (by omega)⟩

theorem scrollBelow_spec (n : Nat) (v : Screen) (hn : (n : Int) ≤ VGA_WIDTH * VGA_HEIGTH) (h : Inside v) :
    (scrollBelow n v).x = v.x ∧ (scrollBelow n v).y = v.y ∧ Inside (scrollBelow n v) := by
  induction n with
  | zero => exact ⟨rfl, rfl, h⟩
  | succ n ih =>
    push_cast at hn
    obtain ⟨hx, hy, hin⟩ := ih (by omega)
    exact ⟨hx, hy, store_inside _ hin (by omega) (by omega)⟩

theorem moveCursor_bounded {v : Screen} (x y : Int) (h : Bounded v) : Bounded (moveCursor x y v) :=
  ⟨h.x_nonneg, h.x_lt, h.y_nonneg, h.y_lt, h.inside⟩

theorem width_pos : 0 < VGA_WIDTH := by decide

theorem heigth_pos : 0 < VGA_HEIGTH := by decide

theorem cells_le : ((VGA_WIDTH * VGA_HEIGTH).toNat : Int) ≤ VGA_WIDTH * VGA_HEIGTH := by
  rw [Int.toNat_of_nonneg (Int.mul_nonneg width_pos.le heigth_pos.le)]

/-- `init_vga`, from any values of the static variables. -/
theorem initVga_bounded {v : Screen} (h : Inside v) : Bounded (initVga v) := by
  obtain ⟨hx, hy, hin⟩ := clrBelow_spec _ { v with x := 0, y := 0 } cells_le h
  rw [initVga, clrScreen]
  apply moveCursor_bounded
  exact ⟨hx.ge, by rw [hx]; exact width_pos, hy.ge, by rw [hy]; exact heigth_pos, hin⟩

theorem scrollDown_bounded {v : Screen} (h : Bounded v) : Bounded (scrollDown v) := by
  obtain ⟨hx, hy, hin⟩ := scrollBelow_spec _ v cells_le h.inside
  rw [scrollDown]
  refine ⟨?_, ?_, ?_, ?_, hin⟩
  · rw [hx]; exact h.x_nonneg
  · rw [hx]; exact h.x_lt
  · rw [hy]; exact h.y_nonneg
  · rw [hy]; exact h.y_lt

/-- A cursor that has moved past one of the two edges, but not past both. -/
structure Near (v : Screen) : Prop where
  x_nonneg : 0 ≤ v.x
  y_nonneg : 0 ≤ v.y
  near : v.x < VGA_WIDTH ∧ v.y ≤ VGA_HEIGTH ∨ v.x ≤ VGA_WIDTH ∧ v.y < VGA_HEIGTH
  inside : Inside v

theorem Bounded.near {v : Screen} (h : Bounded v) : Near v :=
  ⟨h.x_nonneg, h.y_nonneg, Or.inl ⟨h.x_lt, h.y_lt.le⟩, h.inside⟩

/-- Wrapping and scrolling in sequence bring the cursor back from either edge. -/
theorem settle_bounded {v : Screen} (h : Near v) : Bounded (settle v) := by
  obtain ⟨hx, hy, hnear, hin⟩ := h
  simp only [VGA_WIDTH, VGA_HEIGTH] at hnear
  apply moveCursor_bounded
  by_cases hw : VGA_WIDTH ≤ v.x
  · rw [if_pos hw]
    rw [VGA_WIDTH] at hw
    by_cases hs : VGA_HEIGTH ≤ v.y + 1
    · rw [if_pos hs]
      rw [VGA_HEIGTH] at hs
      apply scrollDown_bounded
      refine ⟨le_refl 0, width_pos, ?_, ?_, hin⟩ <;> simp only [VGA_HEIGTH] <;> omega
    · rw [if_neg hs]
      exact ⟨le_refl 0, width_pos, by simp only; omega, not_le.mp hs, hin⟩
  · rw [if_neg hw]
    by_cases hs : VGA_HEIGTH ≤ v.y
    · rw [if_pos hs]
      rw [VGA_HEIGTH] at hs
      apply scrollDown_bounded
      refine ⟨le_refl 0, width_pos, ?_, ?_, hin⟩ <;> simp only [VGA_HEIGTH] <;> omega
    · rw [if_neg hs]
      exact ⟨hx, not_le.mp hw, hy, not_le.mp hs, hin⟩

/-- A backspace steps to the cell before, around both edges. -/
theorem stepBack_bounded {v : Screen} (h : Bounded v) : Bounded (stepBack v) := by
  obtain ⟨hx, hx', hy, hy', hin⟩ := h
  simp only [VGA_WIDTH, VGA_HEIGTH] at hx' hy'
  rw [stepBack]
  by_cases h0 : v.x = 0
  · rw [if_pos h0]
    refine ⟨Int.sub_nonneg_of_le width_pos, Int.sub_one_lt_of_le (le_refl _), ?_, ?_, hin⟩ <;>
      simp only [VGA_HEIGTH] <;> split <;> omega
  · rw [if_neg h0]
    refine ⟨?_, ?_, hy, hy', hin⟩ <;> simp only [VGA_WIDTH] <;> omega

/-! ## The two functions -/

theorem putString_bounded {putchar : UInt8 → Screen → Option Screen}
    (hp : ∀ c v v', putchar c v = some v' → Bounded v → Bounded v') (s : List UInt8) {v v' : Screen}
    (h : putString putchar s v = some v') (hv : Bounded v) : Bounded v' := by
  induction s generalizing v with
  | nil => exact Option.some.inj h ▸ hv
  | cons c s ih =>
    obtain ⟨u, hu, h⟩ := Option.bind_eq_some_iff.mp h
    exact ih h (hp c v u hu hv)

/-- **The invariant is kept** by both functions at every depth. -/
theorem keeps_bounded (depth : Nat) :
    (∀ c v v', vgaPutchar depth c v = some v' → Bounded v → Bounded v') ∧
      ∀ s v v', kprintf depth s v = some v' → Bounded v → Bounded v' := by
  induction depth with
  | zero =>
    refine ⟨?_, ?_⟩
    · intro c v v' h
      cases h
    · intro s v v' h
      cases h
  | succ depth ih =>
    obtain ⟨hputchar, hkprintf⟩ := ih
    refine ⟨?_, ?_⟩
    · intro c v v' h hv
      rw [vgaPutchar] at h
      split at h
      · obtain rfl := Option.some.inj h
        apply settle_bounded
        have hy := hv.y_nonneg
        have hy' := hv.y_lt
        exact ⟨le_refl 0, by simp only; omega, Or.inl ⟨width_pos, Int.add_one_le_of_lt hy'⟩, hv.inside⟩
      split at h
      · obtain rfl := Option.some.inj h
        exact settle_bounded ((stepBack_bounded hv).store _).near
      split at h
      · obtain ⟨u, hu, rfl⟩ := Option.map_eq_some_iff.mp h
        exact settle_bounded (hkprintf _ v u hu hv).near
      · obtain rfl := Option.some.inj h
        apply settle_bounded
        have hx := hv.x_nonneg
        exact ⟨by simp only [store_x]; omega, hv.y_nonneg, Or.inr ⟨Int.add_one_le_of_lt hv.x_lt, hv.y_lt⟩,
          (hv.store (vgaEntry c)).inside⟩
    · intro s v v' h hv
      rw [kprintf] at h
      exact putString_bounded hputchar s h hv

/-- **`vga_putchar` returns**: a tab prints blanks, which do not nest any further. -/
theorem vgaPutchar_returns (depth : Nat) (c : UInt8) (v : Screen) : ∃ v', vgaPutchar (depth + 3) c v = some v' := by
  have hblank : ∀ u, ∃ u', vgaPutchar (depth + 1) 32 u = some u' := fun u => ⟨_, rfl⟩
  rw [vgaPutchar]
  split
  · exact ⟨_, rfl⟩
  split
  · exact ⟨_, rfl⟩
  split
  · obtain ⟨u, hu⟩ := hblank v
    obtain ⟨u', hu'⟩ := hblank u
    by_cases hx : v.x.tmod 2 = 0
    · simp [kprintf, putString, hx, hu, hu']
    · simp [kprintf, putString, hx, hu]
  · exact ⟨_, rfl⟩

/-- **The cursor and the cells.** After `init_vga` every sequence of characters is printed, and leaves the cursor on the
screen and every index written among its cells. -/
theorem cursor_bounds (depth : Nat) (mem : Int → UInt16) (cs : List UInt8) :
    ∃ v, putchars (depth + 3) cs (initVga ⟨0, 0, mem, [], []⟩) = some v ∧ Bounded v := by
  have hreturns : ∀ u, ∃ v, putchars (depth + 3) cs u = some v := by
    induction cs with
    | nil => exact fun u => ⟨u, rfl⟩
    | cons c cs ih =>
      intro u
      obtain ⟨u', hu'⟩ := vgaPutchar_returns depth c u
      obtain ⟨v, hv⟩ := ih u'
      exact ⟨v, by rw [putchars, putString, hu']; exact hv⟩
  obtain ⟨v, hv⟩ := hreturns (initVga ⟨0, 0, mem, [], []⟩)
  have hinit : Bounded (initVga ⟨0, 0, mem, [], []⟩) := initVga_bounded (fun i hi => (by cases hi))
  exact ⟨v, hv, putString_bounded (keeps_bounded (depth + 3)).1 cs hv hinit⟩

end Raampjes.Vga
