import Raampjes.Libc.String
import Raampjes.Mm.PhysInit

/-!
# The ramdisk

`getsize` and `find_file`. The module of the boot loader is a part of memory; `find_file` goes from header to
header by the sizes it finds there.

- `getsize_returns`: the field as an octal number, modulo `2 ^ 32`;
- `findRound_returns`: one round of `find_file`, for any contents of memory.
-/

namespace Raampjes.Ramdisk

open Progs Libc

/-- `first_header` and `tar_size`, which `init_rd` takes from the tag of the module. -/
structure Rd where
  firstHeader : Nat
  tarSize : Nat
  firstHeader_lt : firstHeader < 2 ^ 32

/-- `sizeof(TarHeader)`. -/
def sizeofTarHeader : Nat := 153

/-- The offset of `size` in a `TarHeader`. -/
def sizeOffset : Nat := 124

/-! ## The functions -/

/-- `in[j - 1] - '0'`, converted to `unsigned int`. -/
def digit (c : UInt8) : Nat := ((char c - 48) % 2 ^ 32).toNat

/-- The loop of `getsize`, with `j` characters left. -/
def getsizeFrom (input : Nat) : Nat → Nat → Nat → OnBytes Nat
  | 0, _, size => pure size
  | j + 1, count, size => do
    let c ← load (input + j)
    getsizeFrom input j (count * 8 % 2 ^ 32) ((size + digit c * count) % 2 ^ 32)

def getsize (input : Nat) : OnBytes Nat := getsizeFrom input 11 1 0

/-- `((size - 1) / 512 + 2) * 512`. -/
def advance (size : Nat) : Nat := ((size + 2 ^ 32 - 1) % 2 ^ 32 / 512 + 2) * 512 % 2 ^ 32

/-- One round of the loop of `find_file`, at `current_header`. -/
def findRound (name address : Nat) : OnBytes (Nat ⊕ Nat) := do
  let c ← strncmp name address 100
  if c = 0 then pure (.inr address)
  else do
    let size ← getsize (address + sizeOffset)
    let first ← load address
    if first = 0 then pure (.inr NULL) else pure (.inl ((address + advance size) % 2 ^ 32))

def findFile (rd : Rd) (name : Nat) : OnBytes Nat := forever .endless (findRound name) rounds rd.firstHeader

/-! ## Sizes -/

/-- The octal number that the characters spell, in 32 bits. -/
def octal (bs : List UInt8) : Nat := bs.foldl (fun v c => (8 * v + digit c) % 2 ^ 32) 0

theorem octal_snoc (bs : List UInt8) (c : UInt8) : octal (bs ++ [c]) = (8 * octal bs + digit c) % 2 ^ 32 := by
  rw [octal, List.foldl_append]
  rfl

/-- The characters of a field. -/
def field (mem : Nat → UInt8) (p n : Nat) : List UInt8 := (List.range n).map fun i => mem ((p + i) % 2 ^ 32)

theorem field_succ (mem : Nat → UInt8) (p n : Nat) : field mem p (n + 1) = field mem p n ++ [mem ((p + n) % 2 ^ 32)] := by
  rw [field, List.range_succ, List.map_append]
  rfl

theorem getsizeFrom_returns {P : Nat → Prop} (input : Nat) {j : Nat} (hP : ∀ i < j, P ((input + i) % 2 ^ 32))
    (count size : Nat) (hsize : size < 2 ^ 32) (s : Bytes) :
    ∃ t, Returns (getsizeFrom input j count size) s ((size + count * octal (field s.mem input j)) % 2 ^ 32) t ∧
      Looked P s t := by
  induction j generalizing count size s with
  | zero =>
    refine ⟨s, ?_, Looked.refl P s⟩
    have : (size + count * octal (field s.mem input 0)) % 2 ^ 32 = size := by
      show (size + count * 0) % 2 ^ 32 = size
      rw [Nat.mul_zero, Nat.add_zero, Nat.mod_eq_of_lt hsize]
    rw [this]
    exact pure_ok.mpr ⟨rfl, rfl⟩
  | succ j ih =>
    obtain ⟨t, ht, hlook⟩ := load_returns s (hP j (Nat.lt_succ_self j))
    obtain ⟨u, hu, hlook'⟩ := ih (fun i hi => hP i (Nat.lt_succ_of_lt hi)) (count * 8 % 2 ^ 32)
      ((size + digit (s.mem ((input + j) % 2 ^ 32)) * count) % 2 ^ 32) (Nat.mod_lt _ (Nat.two_pow_pos 32)) t
    refine ⟨u, ?_, hlook.trans hlook'⟩
    rw [getsizeFrom, Returns.bind_iff ht]
    -- the digit that is added now is the last one of the number
    have hval : (size + count * octal (field s.mem input (j + 1))) % 2 ^ 32 =
        ((size + digit (s.mem ((input + j) % 2 ^ 32)) * count) % 2 ^ 32 +
          count * 8 % 2 ^ 32 * octal (field t.mem input j)) % 2 ^ 32 := by
      rw [field_succ, octal_snoc, hlook.mem]
      generalize octal (field s.mem input j) = v
      generalize digit _ = d
      have h1 : (size + count * ((8 * v + d) % 2 ^ 32)) % 2 ^ 32 = (size + count * (8 * v + d)) % 2 ^ 32 := by
        rw [Nat.add_mod, Nat.mul_mod, Nat.mod_mod, ← Nat.mul_mod, ← Nat.add_mod]
      have h2 : ((size + d * count) % 2 ^ 32 + count * 8 % 2 ^ 32 * v) % 2 ^ 32 =
          (size + d * count + count * 8 * v) % 2 ^ 32 := by
        rw [Nat.add_mod, Nat.mod_mod, Nat.mul_mod, Nat.mod_mod, ← Nat.mul_mod, ← Nat.add_mod]
      rw [h1, h2]
      congr 1
      ring
    rw [hval]
    exact hu

/-- The size that a header gives. -/
def sizeAt (mem : Nat → UInt8) (address : Nat) : Nat := octal (field mem (address + sizeOffset) 11)

theorem octal_lt (bs : List UInt8) : octal bs < 2 ^ 32 := by
  cases bs using List.reverseRecOn with
  | nil => exact Nat.two_pow_pos 32
  | append_singleton bs c =>
    rw [octal_snoc]
    exact Nat.mod_lt _ (Nat.two_pow_pos 32)

theorem getsize_returns {P : Nat → Prop} (s : Bytes) (address : Nat)
    (hP : ∀ i < 11, P ((address + sizeOffset + i) % 2 ^ 32)) :
    ∃ t, Returns (getsize (address + sizeOffset)) s (sizeAt s.mem address) t ∧ Looked P s t := by
  obtain ⟨t, ht, hlook⟩ := getsizeFrom_returns (address + sizeOffset) hP 1 0 (Nat.two_pow_pos 32) s
  have hval : (0 + 1 * octal (field s.mem (address + sizeOffset) 11)) % 2 ^ 32 = sizeAt s.mem address := by
    rw [Nat.zero_add, Nat.one_mul, Nat.mod_eq_of_lt (octal_lt _), sizeAt]
  rw [hval] at ht
  exact ⟨t, ht, hlook⟩

/-! ## One round -/

/-- The header after the one at `address`. -/
def following (mem : Nat → UInt8) (address : Nat) : Nat := (address + advance (sizeAt mem address)) % 2 ^ 32

/-- The header has the name that is looked for. -/
def Matches (mem : Nat → UInt8) (name address : Nat) : Prop := text mem name 100 = text mem address 100

instance (mem : Nat → UInt8) (name address : Nat) : Decidable (Matches mem name address) :=
  inferInstanceAs (Decidable (_ = _))

/-- The name in the header is empty. -/
def Unnamed (mem : Nat → UInt8) (address : Nat) : Prop := mem (address % 2 ^ 32) = 0

instance (mem : Nat → UInt8) (address : Nat) : Decidable (Unnamed mem address) :=
  inferInstanceAs (Decidable (_ = _))

/-- Where one round looks: at the name, up to its end, and at the header. -/
def Visible (mem : Nat → UInt8) (name address : Nat) (p : Nat) : Prop :=
  (∃ j < 100, j ≤ (text mem name 100).length ∧ p = (name + j) % 2 ^ 32) ∨
    ∃ j < sizeofTarHeader, p = (address + j) % 2 ^ 32

theorem Compared.visible {mem : Nat → UInt8} {name address p : Nat} (h : Compared mem name address 100 p) :
    Visible mem name address p := by
  obtain ⟨j, hj, hle, hp⟩ := h
  rcases hp with hp | hp
  · exact Or.inl ⟨j, hj, hle, hp⟩
  · exact Or.inr ⟨j, by rw [sizeofTarHeader]; omega, hp⟩

/-- **One round of `find_file`.** -/
theorem findRound_returns (name address : Nat) (s : Bytes) :
    ∃ t, Returns (findRound name address) s
        (if Matches s.mem name address then .inr address
          else if Unnamed s.mem address then .inr NULL else .inl (following s.mem address)) t ∧
      Looked (Visible s.mem name address) s t := by
  obtain ⟨r, t, ht, hr, hlook⟩ := strncmp_returns name address 100 s
  have hlook := hlook.mono fun p hp => Compared.visible hp
  by_cases hm : Matches s.mem name address
  · refine ⟨t, ?_, hlook⟩
    rw [findRound, Returns.bind_iff ht, if_pos (hr.mpr hm), if_pos hm]
    exact pure_ok.mpr ⟨rfl, rfl⟩
  · have hheader : ∀ j < sizeofTarHeader, Visible s.mem name address ((address + j) % 2 ^ 32) :=
      fun j hj => Or.inr ⟨j, hj, rfl⟩
    obtain ⟨u, hu, hlook'⟩ := getsize_returns (P := Visible s.mem name address) t address fun i hi => by
      rw [Nat.add_assoc]
      exact hheader _ (by rw [sizeOffset, sizeofTarHeader]; omega)
    obtain ⟨v, hv, hlook''⟩ := load_returns u (hheader 0 (by decide))
    rw [Nat.add_zero] at hv
    have hmem : u.mem = s.mem := (hlook.trans hlook').mem
    refine ⟨v, ?_, (hlook.trans hlook').trans hlook''⟩
    rw [findRound, Returns.bind_iff ht, if_neg (fun h0 => hm (hr.mp h0)), Returns.bind_iff hu, Returns.bind_iff hv,
      if_neg hm, hmem, hlook.mem]
    by_cases hz : Unnamed s.mem address
    · rw [if_pos hz, if_pos (show s.mem (address % 2 ^ 32) = 0 from hz)]
      exact pure_ok.mpr ⟨rfl, rfl⟩
    · rw [if_neg hz, if_neg (show ¬ s.mem (address % 2 ^ 32) = 0 from hz)]
      exact pure_ok.mpr ⟨rfl, rfl⟩

end Raampjes.Ramdisk
