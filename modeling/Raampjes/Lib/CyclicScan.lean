import Mathlib

/-!
# Scans of a table of `n` slots

A scan looks at the slots in order and takes the first that answers (`findSome_range_eq_some`,
`findSome_range_eq_none`); a cyclic scan starts anywhere and still sees every slot (`exists_offset`). `offset` counts the
slots that it sees before a given one: the next scan, from behind a slot that was seen before, sees fewer (`offset_next`).
-/

namespace CyclicScan

variable {β : Type*} {n : Nat} {f : Nat → Option β} {b : β}

/-- The first answer, and no answer before it. -/
theorem findSome_range_eq_some :
    (List.range n).findSome? f = some b ↔ ∃ i < n, f i = some b ∧ ∀ j < i, f j = none := by
  induction n with
  | zero => simp
  | succ n ih =>
    rw [List.range_succ, List.findSome?_append]
    constructor
    · intro h
      cases hp : (List.range n).findSome? f with
      | some c =>
        obtain ⟨i, hi, hf, hj⟩ := ih.mp (by simpa [hp] using h)
        exact ⟨i, by omega, hf, hj⟩
      | none =>
        refine ⟨n, by omega, by simpa [hp] using h, fun j hj => ?_⟩
        exact List.findSome?_eq_none_iff.mp hp j (List.mem_range.mpr hj)
    · rintro ⟨i, hi, hf, hj⟩
      rcases Nat.lt_or_ge i n with h | h
      · simp [ih.mpr ⟨i, h, hf, hj⟩]
      · have hi : i = n := by omega
        subst hi
        have hp : (List.range i).findSome? f = none :=
          List.findSome?_eq_none_iff.mpr fun j h => hj j (List.mem_range.mp h)
        simp [hp, hf]

/-- No answer at all. -/
theorem findSome_range_eq_none : (List.range n).findSome? f = none ↔ ∀ i < n, f i = none := by
  simp [List.findSome?_eq_none_iff]

/-- Every slot is met by the scan that starts at `start`. -/
theorem exists_offset (start : Nat) {j : Nat} (hj : j < n) : ∃ i < n, (i + start) % n = j := by
  refine ⟨(j + (n - start % n)) % n, Nat.mod_lt _ (by omega), ?_⟩
  have hs := Nat.mod_lt start (by omega : n > 0)
  have hq := Nat.div_add_mod start n
  have hsum : j + (n - start % n) + start = j + n * (start / n + 1) := by
    rw [Nat.mul_add, Nat.mul_one]
    omega
  rw [Nat.mod_add_mod, hsum, Nat.add_mul_mod_self_left, Nat.mod_eq_of_lt hj]

/-- How many slots a scan from `start` sees before slot `p`. -/
def offset (n start p : Nat) : Nat := if start % n ≤ p then p - start % n else p + n - start % n

section Offset

variable {start p q i : Nat}

/-- The slot in round `i` of a scan. -/
theorem slot_eq (hi : i < n) :
    (i + start) % n = if start % n + i < n then start % n + i else start % n + i - n := by
  have hs := Nat.mod_lt start (by omega : n > 0)
  have hmod : (i + start) % n = (start % n + i) % n := by
    rw [Nat.add_comm, Nat.mod_add_mod]
  rw [hmod]
  split
  · exact Nat.mod_eq_of_lt ‹_›
  · rw [Nat.mod_eq_sub_mod (by omega), Nat.mod_eq_of_lt (by omega)]

theorem offset_lt (hp : p < n) : offset n start p < n := by
  unfold offset
  have hs := Nat.mod_lt start (by omega : n > 0)
  split <;> omega

/-- The scan sees slot `p` in that round. -/
theorem offset_spec (hp : p < n) : (offset n start p + start) % n = p := by
  rw [slot_eq (offset_lt hp)]
  have hs := Nat.mod_lt start (by omega : n > 0)
  unfold offset
  split_ifs <;> omega

theorem succ_mod (hq : q < n) : (q + 1) % n = if q + 1 = n then 0 else q + 1 := by
  split
  · simp [*]
  · exact Nat.mod_eq_of_lt (by omega)

/-- The scan from behind a slot that comes before `p`. -/
theorem offset_next (hp : p < n) (hi : i < offset n start p) :
    offset n ((i + start) % n + 1) p < offset n start p := by
  have hlt : offset n start p < n := offset_lt hp
  have hs := Nat.mod_lt start (by omega : n > 0)
  have hq : (i + start) % n = _ := slot_eq (by omega : i < n)
  have hqlt := Nat.mod_lt (i + start) (by omega : n > 0)
  have hsucc := succ_mod hqlt
  unfold offset at hi ⊢
  rw [hsucc]
  split_ifs at hi hq ⊢ <;> omega

/-- From behind another slot, at most all but two are seen before. -/
theorem offset_behind (hp : p < n) (hq : q < n) (hne : p ≠ q) : offset n (q + 1) p ≤ n - 2 := by
  have hsucc := succ_mod hq
  unfold offset
  rw [hsucc]
  split_ifs <;> omega

end Offset

end CyclicScan
