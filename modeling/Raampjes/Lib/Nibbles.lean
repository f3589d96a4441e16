import Mathlib

/-!
# Twelve-bit entries

A table of twelve-bit entries without gaps: its half bytes form one stream, the low half of each byte first, and three of
them in a row are an entry.

- `entry_even`, `entry_odd`: how an entry is read off the two bytes that it lies in;
- `entry_congr`: it depends on these two bytes alone.
-/

namespace Nibbles

/-- A half byte of the stream. -/
def nibble (bytes : Nat → UInt8) (k : Nat) : Nat :=
  if k % 2 = 0 then (bytes (k / 2)).toNat % 16 else (bytes (k / 2)).toNat / 16

/-- An entry, its lowest half byte first. -/
def entry (bytes : Nat → UInt8) (c : Nat) : Nat :=
  nibble bytes (3 * c) + 16 * nibble bytes (3 * c + 1) + 256 * nibble bytes (3 * c + 2)

/-- The little-endian word at a place. -/
def wordAt (bytes : Nat → UInt8) (p : Nat) : Nat := 256 * (bytes (p + 1)).toNat + (bytes p).toNat

variable {bytes bytes' : Nat → UInt8} {c : Nat}

theorem nibble_even (bytes : Nat → UInt8) (k : Nat) : nibble bytes (2 * k) = (bytes k).toNat % 16 := by
  rw [nibble, if_pos (by omega), Nat.mul_div_cancel_left k (by decide)]

theorem nibble_odd (bytes : Nat → UInt8) (k : Nat) : nibble bytes (2 * k + 1) = (bytes k).toNat / 16 := by
  rw [nibble, if_neg (by omega), show (2 * k + 1) / 2 = k by omega]

theorem entry_even (bytes : Nat → UInt8) (h : c % 2 = 0) : entry bytes c = wordAt bytes (c + c / 2) % 4096 := by
  obtain ⟨k, rfl⟩ : ∃ k, c = 2 * k := ⟨c / 2, by omega⟩
  have h0 : 3 * (2 * k) = 2 * (3 * k) := by omega
  have h2 : 3 * (2 * k) + 2 = 2 * (3 * k + 1) := by omega
  have hp : 2 * k + 2 * k / 2 = 3 * k := by omega
  rw [entry, h2, h0, nibble_even, nibble_odd, nibble_even, wordAt, hp]
  have := (bytes (3 * k)).toNat_lt
  have := (bytes (3 * k + 1)).toNat_lt
  omega

theorem entry_odd (bytes : Nat → UInt8) (h : c % 2 = 1) : entry bytes c = wordAt bytes (c + c / 2) / 16 := by
  obtain ⟨k, rfl⟩ : ∃ k, c = 2 * k + 1 := ⟨c / 2, by omega⟩
  have h0 : 3 * (2 * k + 1) = 2 * (3 * k + 1) + 1 := by omega
  have h1 : 3 * (2 * k + 1) + 1 = 2 * (3 * k + 2) := by omega
  have h2 : 3 * (2 * k + 1) + 2 = 2 * (3 * k + 2) + 1 := by omega
  have hp : 2 * k + 1 + (2 * k + 1) / 2 = 3 * k + 1 := by omega
  rw [entry, h2, h1, h0, nibble_odd, nibble_even, nibble_odd, wordAt, hp, Nat.add_assoc (3 * k) 1 1]
  have := (bytes (3 * k + 1)).toNat_lt
  omega

/-- An entry depends on the word that it lies in. -/
theorem entry_congr (h0 : bytes (c + c / 2) = bytes' (c + c / 2)) (h1 : bytes (c + c / 2 + 1) = bytes' (c + c / 2 + 1)) :
    entry bytes c = entry bytes' c := by
  have hword : wordAt bytes (c + c / 2) = wordAt bytes' (c + c / 2) := by
    rw [wordAt, wordAt, h0, h1]
  rcases Nat.mod_two_eq_zero_or_one c with h | h
  · rw [entry_even bytes h, entry_even bytes' h, hword]
  · rw [entry_odd bytes h, entry_odd bytes' h, hword]

end Nibbles
