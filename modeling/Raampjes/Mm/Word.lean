import Mathlib

/-!
# Entries of page directories and page tables

A 32-bit word as an entry: the frame number in bits 12 to 31, the flags of the processor in bits 0 to 2, and the two
bits that the kernel uses for copy on write.

- `present`, `writable`, `user`, `shared`, `cowDir`: the bits, with what the operations of the source do to them;
- `frameOf`: the frame, which no operation on the low 12 bits changes;
- `byteAt`, `setByte`: a word as four bytes.
-/

namespace Raampjes.Mm

abbrev Word := BitVec 32

def PG_USER : Word := 0x4

def PG_KERN : Word := 0x0

def PG_RW : Word := 0x2

def present (w : Word) : Bool := w.getLsbD 0

def writable (w : Word) : Bool := w.getLsbD 1

def user (w : Word) : Bool := w.getLsbD 2

/-- Bit 9 (`0x200`): the page, or the page table, is shared for copy on write. -/
def shared (w : Word) : Bool := w.getLsbD 9

/-- Bit 10 (`0x400`) of a directory entry. -/
def cowDir (w : Word) : Bool := w.getLsbD 10

/-- The number of the frame that an entry names. -/
def frameOf (w : Word) : Nat := (w >>> 12).toNat

/-- `page_frame | flags`, for a frame by its number. -/
def mkEntry (frame : Nat) (flags : Word) : Word := (BitVec.ofNat 32 frame <<< 12) ||| flags

/-- What `fork_mem` makes of a directory entry. -/
def cowEntry (w : Word) : Word := (w &&& ~~~2#32) ||| 0x200#32 ||| 0x400#32

/-- What `enable_CoW` makes of a page-table entry. -/
def cowPage (w : Word) : Word := (w &&& ~~~2#32) ||| 0x200#32

/-- `w &= ~1`. -/
def absent (w : Word) : Word := w &&& ~~~1#32

/-! ## Flags -/

theorem frameOf_lt (w : Word) : frameOf w < 2 ^ 20 := by
  rw [frameOf, BitVec.toNat_ushiftRight, Nat.shiftRight_eq_div_pow]
  have := w.isLt
  omega

theorem frameOf_congr {v w : Word} (h : ∀ i, 12 ≤ i → v.getLsbD i = w.getLsbD i) : frameOf v = frameOf w := by
  rw [frameOf, frameOf]
  congr 1
  apply BitVec.eq_of_getLsbD_eq
  intro i _
  rw [BitVec.getLsbD_ushiftRight, BitVec.getLsbD_ushiftRight]
  exact h _ (Nat.le_add_right 12 i)

/-- A mask of flags has no bits from 12 on. -/
theorem mask_high {m : Word} (hm : m.toNat < 2 ^ 12) {i : Nat} (hi : 12 ≤ i) : m.getLsbD i = false := by
  rw [BitVec.getLsbD, Nat.testBit_lt_two_pow]
  exact lt_of_lt_of_le hm (Nat.pow_le_pow_right (by decide) hi)

theorem frameOf_or {m : Word} (w : Word) (hm : m.toNat < 2 ^ 12) : frameOf (w ||| m) = frameOf w := by
  apply frameOf_congr
  intro i hi
  rw [BitVec.getLsbD_or, mask_high hm hi, Bool.or_false]

theorem frameOf_clear {m : Word} (w : Word) (hm : m.toNat < 2 ^ 12) : frameOf (w &&& ~~~m) = frameOf w := by
  apply frameOf_congr
  intro i hi
  rw [BitVec.getLsbD_and, BitVec.getLsbD_not, mask_high hm hi]
  by_cases hlt : i < 32
  · simp [hlt]
  · simp [BitVec.getLsbD_of_ge w i (not_lt.mp hlt)]

@[simp] theorem frameOf_absent (w : Word) : frameOf (absent w) = frameOf w := frameOf_clear w (by decide)

@[simp] theorem frameOf_cowEntry (w : Word) : frameOf (cowEntry w) = frameOf w := by
  rw [cowEntry, frameOf_or _ (by decide), frameOf_or _ (by decide), frameOf_clear _ (by decide)]

@[simp] theorem frameOf_cowPage (w : Word) : frameOf (cowPage w) = frameOf w := by
  rw [cowPage, frameOf_or _ (by decide), frameOf_clear _ (by decide)]

/-- The frame of an entry that is put together from a frame and flags. -/
theorem frameOf_mkEntry {f : Nat} {flags : Word} (hf : f < 2 ^ 20) (hm : flags.toNat < 2 ^ 12) :
    frameOf (mkEntry f flags) = f := by
  rw [mkEntry, frameOf_or _ hm, frameOf, BitVec.toNat_ushiftRight, BitVec.toNat_shiftLeft, BitVec.toNat_ofNat,
    Nat.shiftLeft_eq, Nat.shiftRight_eq_div_pow]
  omega

theorem mkEntry_low {f : Nat} {flags : Word} {i : Nat} (hi : i < 12) :
    (mkEntry f flags).getLsbD i = flags.getLsbD i := by
  rw [mkEntry, BitVec.getLsbD_or, BitVec.getLsbD_shiftLeft]
  simp [hi]

theorem mkEntry_or (f : Nat) (flags m : Word) : mkEntry f flags ||| m = mkEntry f (flags ||| m) := by
  rw [mkEntry, mkEntry, BitVec.or_assoc]

@[simp] theorem present_mkEntry (f : Nat) (flags : Word) : present (mkEntry f flags) = present flags :=
  mkEntry_low (by decide)

@[simp] theorem writable_mkEntry (f : Nat) (flags : Word) : writable (mkEntry f flags) = writable flags :=
  mkEntry_low (by decide)

@[simp] theorem user_mkEntry (f : Nat) (flags : Word) : user (mkEntry f flags) = user flags :=
  mkEntry_low (by decide)

@[simp] theorem shared_mkEntry (f : Nat) (flags : Word) : shared (mkEntry f flags) = shared flags :=
  mkEntry_low (by decide)

@[simp] theorem cowDir_mkEntry (f : Nat) (flags : Word) : cowDir (mkEntry f flags) = cowDir flags :=
  mkEntry_low (by decide)

section Or

variable (v w : Word)

@[simp] theorem present_or : present (v ||| w) = (present v || present w) := BitVec.getLsbD_or

@[simp] theorem writable_or : writable (v ||| w) = (writable v || writable w) := BitVec.getLsbD_or

@[simp] theorem user_or : user (v ||| w) = (user v || user w) := BitVec.getLsbD_or

@[simp] theorem shared_or : shared (v ||| w) = (shared v || shared w) := BitVec.getLsbD_or

@[simp] theorem cowDir_or : cowDir (v ||| w) = (cowDir v || cowDir w) := BitVec.getLsbD_or

end Or

@[simp] theorem present_three : present 3#32 = true := rfl

@[simp] theorem present_one : present 1#32 = true := rfl

/-- The two assignments of `pf_ro_violation` to an entry that `map_page` just wrote. -/
theorem mkEntry_seven_flags (f : Nat) : (mkEntry f 7#32 ||| 2#32) &&& ~~~0x400#32 = mkEntry f 7#32 := by
  apply BitVec.eq_of_getLsbD_eq
  intro i hi
  simp only [mkEntry, BitVec.getLsbD_and, BitVec.getLsbD_or, BitVec.getLsbD_not, BitVec.getLsbD_shiftLeft]
  have hbits : ∀ j, j < 12 → (((7#32).getLsbD j || (2#32).getLsbD j) && !(0x400#32).getLsbD j) = (7#32).getLsbD j := by
    decide
  by_cases h12 : i < 12
  · simp only [hi, h12, decide_true, Bool.true_and, Bool.not_true, Bool.and_false, Bool.false_and, Bool.false_or]
    exact hbits i h12
  · have h2 : (2#32).getLsbD i = false := mask_high (by decide) (not_lt.mp h12)
    have h400 : (0x400#32).getLsbD i = false := mask_high (by decide) (not_lt.mp h12)
    simp only [hi, h2, h400, decide_true, Bool.true_and, Bool.not_false, Bool.and_true, Bool.or_false]

@[simp] theorem present_seven : present 7#32 = true := rfl

@[simp] theorem shared_seven : shared 7#32 = false := rfl

@[simp] theorem cowDir_seven : cowDir 7#32 = false := rfl

@[simp] theorem user_seven : user 7#32 = true := rfl

@[simp] theorem writable_seven : writable 7#32 = true := rfl

@[simp] theorem present_absent (w : Word) : present (absent w) = false := by simp [present, absent]

@[simp] theorem writable_absent (w : Word) : writable (absent w) = writable w := by simp [writable, absent]

@[simp] theorem user_absent (w : Word) : user (absent w) = user w := by simp [user, absent]

@[simp] theorem shared_absent (w : Word) : shared (absent w) = shared w := by simp [shared, absent]

@[simp] theorem cowDir_absent (w : Word) : cowDir (absent w) = cowDir w := by simp [cowDir, absent]

@[simp] theorem present_cowEntry (w : Word) : present (cowEntry w) = present w := by simp [present, cowEntry]

@[simp] theorem writable_cowEntry (w : Word) : writable (cowEntry w) = false := by simp [writable, cowEntry]

@[simp] theorem user_cowEntry (w : Word) : user (cowEntry w) = user w := by simp [user, cowEntry]

@[simp] theorem shared_cowEntry (w : Word) : shared (cowEntry w) = true := by simp [shared, cowEntry]

@[simp] theorem cowDir_cowEntry (w : Word) : cowDir (cowEntry w) = true := by simp [cowDir, cowEntry]

@[simp] theorem present_cowPage (w : Word) : present (cowPage w) = present w := by simp [present, cowPage]

@[simp] theorem writable_cowPage (w : Word) : writable (cowPage w) = false := by simp [writable, cowPage]

@[simp] theorem user_cowPage (w : Word) : user (cowPage w) = user w := by simp [user, cowPage]

@[simp] theorem shared_cowPage (w : Word) : shared (cowPage w) = true := by simp [shared, cowPage]

/-! ## Bytes -/

/-- Byte `k` of a word, lowest first. -/
def byteAt (w : Word) (k : Nat) : UInt8 := ⟨w.extractLsb' (8 * k) 8⟩

/-- The word with byte `k` replaced. -/
def setByte (w : Word) (k : Nat) (b : UInt8) : Word :=
  (w &&& ~~~(0xFF#32 <<< (8 * k))) ||| (b.toBitVec.setWidth 32 <<< (8 * k))

theorem getLsbD_ff (i : Nat) : (0xFF#32).getLsbD i = decide (i < 8) := by
  by_cases h : i < 8
  · have : i = 0 ∨ i = 1 ∨ i = 2 ∨ i = 3 ∨ i = 4 ∨ i = 5 ∨ i = 6 ∨ i = 7 := by omega
    rcases this with rfl | rfl | rfl | rfl | rfl | rfl | rfl | rfl <;> rfl
  · rw [decide_eq_false h, BitVec.getLsbD, Nat.testBit_lt_two_pow]
    exact lt_of_lt_of_le (by decide) (Nat.pow_le_pow_right (by decide) (not_lt.mp h))

theorem getLsbD_setByte (w : Word) (b : UInt8) {k n : Nat} (hn : n < 32) :
    (setByte w k b).getLsbD n =
      if 8 * k ≤ n ∧ n < 8 * k + 8 then b.toBitVec.getLsbD (n - 8 * k) else w.getLsbD n := by
  simp only [setByte, BitVec.getLsbD_or, BitVec.getLsbD_and, BitVec.getLsbD_not, BitVec.getLsbD_shiftLeft,
    BitVec.getLsbD_setWidth, getLsbD_ff]
  by_cases hlow : n < 8 * k
  · have hno : ¬ (8 * k ≤ n ∧ n < 8 * k + 8) := fun h => by omega
    simp [hlow, hn, hno]
  · by_cases hhigh : n < 8 * k + 8
    · have hin : n - 8 * k < 8 := by omega
      have hle : 8 * k ≤ n := not_lt.mp hlow
      have hlt : n - 8 * k < 32 := by omega
      simp [hlow, hn, hin, hle, hhigh, hlt]
    · have hout : ¬ n - 8 * k < 8 := by omega
      have hno : ¬ (8 * k ≤ n ∧ n < 8 * k + 8) := fun h => hhigh h.2
      have hbit : b.toBitVec.getLsbD (n - 8 * k) = false := BitVec.getLsbD_of_ge _ _ (not_lt.mp hout)
      simp [hlow, hn, hout, hno, hbit]

theorem byteAt_congr {v w : Word} {k : Nat} (h : ∀ i, i < 8 → v.getLsbD (8 * k + i) = w.getLsbD (8 * k + i)) :
    byteAt v k = byteAt w k := by
  rw [byteAt, byteAt]
  congr 1
  apply BitVec.eq_of_getLsbD_eq
  intro i hi
  simp only [BitVec.getLsbD_extractLsb', hi, decide_true, Bool.true_and]
  exact h i hi

theorem byteAt_setByte (w : Word) (b : UInt8) {k : Nat} (hk : k < 4) : byteAt (setByte w k b) k = b := by
  have : (setByte w k b).extractLsb' (8 * k) 8 = b.toBitVec := by
    apply BitVec.eq_of_getLsbD_eq
    intro i hi
    have hin : 8 * k ≤ 8 * k + i ∧ 8 * k + i < 8 * k + 8 := by omega
    rw [BitVec.getLsbD_extractLsb', getLsbD_setByte w b (by omega), if_pos hin, Nat.add_sub_cancel_left]
    simp [hi]
  rw [byteAt, this]

theorem byteAt_setByte_of_ne (w : Word) (b : UInt8) {j k : Nat} (hj : j < 4) (h : j ≠ k) :
    byteAt (setByte w k b) j = byteAt w j := by
  apply byteAt_congr
  intro i hi
  rw [getLsbD_setByte w b (by omega), if_neg (by omega)]

end Raampjes.Mm
