import Mathlib

/-!
# A queue in a ring of `n` cells

The cells from `head` up to, but not including, `tail` hold the queue, both indices counting modulo `n`
(`contents`). The queue is empty when the indices meet, so a ring of `n` cells holds at most `n - 1` elements.

- `contents_push`: writing at `tail` and moving it on appends, as long as a cell stays free;
- `contents_pop`, `contents_unpush`: moving `head` on removes the first element, moving `tail` back the last one;
- `contents_overrun`: writing when no cell stays free makes the indices meet, and the whole queue is gone;
- `full_iff`: the ring is full exactly when the cell after `tail` is `head`.
-/

namespace RingQueue

variable {α : Type*} {n head tail : Nat} {buf : Nat → α}

/-- Number of elements between two indices of a ring of `n` cells. -/
def count (n head tail : Nat) : Nat := (tail + n - head) % n

/-- The elements from `head` to `tail`, in order. -/
def contents (n : Nat) (buf : Nat → α) (head tail : Nat) : List α :=
  (List.range (count n head tail)).map fun k => buf ((head + k) % n)

@[simp] theorem length_contents : (contents n buf head tail).length = count n head tail := by
  simp [contents]

/-- The count, without the modulus. -/
theorem count_eq (hh : head < n) (ht : tail < n) :
    count n head tail = if head ≤ tail then tail - head else tail + n - head := by
  unfold count
  split
  · rw [show tail + n - head = (tail - head) + n by omega, Nat.add_mod_right]
    exact Nat.mod_eq_of_lt (by omega)
  · exact Nat.mod_eq_of_lt (by omega)

/-- An index less than twice the ring, without the modulus. -/
theorem mod_eq {i : Nat} (hi : i < n + n) : i % n = if i < n then i else i - n := by
  split
  · exact Nat.mod_eq_of_lt ‹_›
  · rw [Nat.mod_eq_sub_mod (by omega)]
    exact Nat.mod_eq_of_lt (by omega)

theorem count_lt (hh : head < n) (ht : tail < n) : count n head tail < n := by
  rw [count_eq hh ht]
  split <;> omega

theorem count_self (hh : head < n) : count n head head = 0 := by
  simp [count_eq hh hh]

theorem count_eq_zero (hh : head < n) (ht : tail < n) : count n head tail = 0 ↔ head = tail := by
  rw [count_eq hh ht]
  split <;> omega

@[simp] theorem contents_self (hh : head < n) : contents n buf head head = [] := by
  simp [contents, count_self hh]

theorem contents_eq_nil (hh : head < n) (ht : tail < n) : contents n buf head tail = [] ↔ head = tail := by
  rw [← List.length_eq_zero_iff, length_contents, count_eq_zero hh ht]

/-- The index after `tail`. -/
theorem succ_mod (ht : tail < n) : (tail + 1) % n = if tail + 1 < n then tail + 1 else 0 := by
  rw [mod_eq (by omega)]
  split
  · rfl
  · omega

/-- **Fullness.** -/
theorem full_iff (hh : head < n) (ht : tail < n) : (tail + 1) % n = head ↔ count n head tail = n - 1 := by
  rw [count_eq hh ht, succ_mod ht]
  split <;> split <;> omega

theorem count_succ (hh : head < n) (ht : tail < n) (hf : count n head tail + 1 < n) :
    count n head ((tail + 1) % n) = count n head tail + 1 := by
  have ht' : (tail + 1) % n < n := Nat.mod_lt _ (by omega)
  rw [count_eq hh ht'] at *
  rw [count_eq hh ht] at *
  rw [succ_mod ht]
  split at hf <;> split <;> split <;> omega

/-- The cell written by a push is not one of the cells in use. -/
theorem index_ne_tail (hh : head < n) (ht : tail < n) {k : Nat} (hk : k < count n head tail) :
    (head + k) % n ≠ tail := by
  rw [count_eq hh ht] at hk
  rw [mod_eq (by split at hk <;> omega)]
  split at hk <;> split <;> omega

/-- The cell after the cells in use is `tail`. -/
theorem index_count (hh : head < n) (ht : tail < n) : (head + count n head tail) % n = tail := by
  rw [count_eq hh ht]
  split
  · rw [show head + (tail - head) = tail by omega]
    exact Nat.mod_eq_of_lt ht
  · rw [show head + (tail + n - head) = tail + n by omega, Nat.add_mod_right]
    exact Nat.mod_eq_of_lt ht

/-- **Push.** -/
theorem contents_push (hh : head < n) (ht : tail < n) (hf : count n head tail + 1 < n) (c : α) :
    contents n (Function.update buf tail c) head ((tail + 1) % n) = contents n buf head tail ++ [c] := by
  unfold contents
  rw [count_succ hh ht hf, List.range_succ, List.map_append, List.map_singleton, index_count hh ht,
    Function.update_self]
  congr 1
  refine List.map_congr_left fun k hk => ?_
  rw [Function.update_of_ne (index_ne_tail hh ht (List.mem_range.mp hk))]

/-- **Push into a full ring.** The indices meet and the contents are gone. -/
theorem contents_overrun (hh : head < n) (hf : (tail + 1) % n = head) (c : α) :
    contents n (Function.update buf tail c) head ((tail + 1) % n) = [] := by
  rw [hf, contents_self hh]

/-- **Pop.** -/
theorem contents_pop (hh : head < n) (ht : tail < n) (hne : head ≠ tail) :
    contents n buf head tail = buf head :: contents n buf ((head + 1) % n) tail := by
  have hc : count n head tail = count n ((head + 1) % n) tail + 1 := by
    have hh' : (head + 1) % n < n := Nat.mod_lt _ (by omega)
    rw [count_eq hh ht, count_eq hh' ht, succ_mod hh]
    split <;> split <;> split <;> omega
  unfold contents
  rw [hc, List.range_succ_eq_map, List.map_cons, List.map_map, Nat.add_zero, Nat.mod_eq_of_lt hh]
  congr 1
  refine List.map_congr_left fun k _ => ?_
  simp only [Function.comp_apply, Nat.succ_eq_add_one]
  rw [Nat.mod_add_mod, show head + (k + 1) = head + 1 + k by ring]

/-- **Undo a push.** -/
theorem contents_unpush (hh : head < n) (ht : tail < n) (hne : head ≠ tail) :
    contents n buf head tail =
      contents n buf head ((tail + n - 1) % n) ++ [buf ((tail + n - 1) % n)] := by
  have hp : (tail + n - 1) % n = if 0 < tail then tail - 1 else n - 1 := by
    rw [mod_eq (by omega)]
    split <;> split <;> omega
  have hp' : (tail + n - 1) % n < n := Nat.mod_lt _ (by omega)
  have hs : ((tail + n - 1) % n + 1) % n = tail := by
    rw [succ_mod hp', hp]
    split <;> split <;> omega
  have hc : count n head ((tail + n - 1) % n) + 1 < n := by
    rw [count_eq hh hp', hp]
    split <;> split <;> omega
  conv_lhs => rw [← hs]
  unfold contents
  rw [count_succ hh hp' hc, List.range_succ, List.map_append, List.map_singleton, index_count hh hp']

end RingQueue
