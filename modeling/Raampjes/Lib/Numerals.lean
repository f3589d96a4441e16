import Mathlib

/-!
# Numerals

The digits of a number in a base, the most significant one first.

- `numeral_lt`, `numeral_ge`: the numeral by its last digit, and `byDigits`: induction over the digits from the last one on;
- `value_numeral`, `numeral_canonical`, `Canonical.eq_numeral`: the numeral has the value of its number and no leading
  zero, and is the only such list;
- `length_numeral_le`: how long it is; `Canonical.shortest`: no list of digits with its value is shorter.
-/

namespace Numerals

variable {b n : Nat} {ds : List Nat}

/-- The digits of `n`, the most significant one first. -/
def numeral (b n : Nat) : List Nat := if n = 0 then [0] else (Nat.digits b n).reverse

/-- The value of digits, by Horner's rule. -/
def value (b : Nat) (ds : List Nat) : Nat := ds.foldl (fun v d => b * v + d) 0

/-- Digits of the base without a leading zero. -/
structure Canonical (b : Nat) (ds : List Nat) : Prop where
  ne_nil : ds ≠ []
  digits : ∀ d ∈ ds, d < b
  lead : ds.head? = some 0 → ds = [0]

/-- Induction over the digits of a number, from the last one on. -/
theorem byDigits (hb : 1 < b) {P : Nat → Prop} (last : ∀ n, n < b → P n) (more : ∀ n, b ≤ n → P (n / b) → P n) (n : Nat) :
    P n := by
  induction n using Nat.strong_induction_on with
  | _ n ih =>
    rcases Nat.lt_or_ge n b with h | h
    · exact last n h
    · exact more n h (ih (n / b) (Nat.div_lt_self (by omega) hb))

/-! ## The numeral -/

theorem numeral_lt (h : n < b) : numeral b n = [n] := by
  unfold numeral
  by_cases h0 : n = 0
  · rw [if_pos h0, h0]
  · rw [if_neg h0, Nat.digits_of_lt b n h0 h, List.reverse_singleton]

theorem numeral_ge (hb : 1 < b) (h : b ≤ n) : numeral b n = numeral b (n / b) ++ [n % b] := by
  have hq : n / b ≠ 0 := (Nat.div_pos h (by omega)).ne'
  unfold numeral
  rw [if_neg (by omega), if_neg hq, Nat.digits_def' hb (by omega), List.reverse_cons]

theorem numeral_ne_nil (hb : 1 < b) (n : Nat) : numeral b n ≠ [] := by
  rcases Nat.lt_or_ge n b with h | h
  · rw [numeral_lt h]
    exact List.cons_ne_nil n []
  · rw [numeral_ge hb h]
    exact List.append_ne_nil_of_right_ne_nil _ (List.cons_ne_nil _ _)

theorem value_append (b : Nat) (ds : List Nat) (d : Nat) : value b (ds ++ [d]) = b * value b ds + d := by
  simp only [value, List.foldl_append, List.foldl_cons, List.foldl_nil]

theorem value_numeral (hb : 1 < b) (n : Nat) : value b (numeral b n) = n := by
  apply byDigits hb (P := fun n => value b (numeral b n) = n)
  · intro n h
    rw [numeral_lt h]
    simp [value]
  · intro n h ih
    rw [numeral_ge hb h, value_append, ih]
    exact Nat.div_add_mod n b

/-- The first digit is that of all but the last digits. -/
theorem head_numeral_ge (hb : 1 < b) (h : b ≤ n) : (numeral b n).head? = (numeral b (n / b)).head? := by
  rw [numeral_ge hb h, List.head?_append_of_ne_nil _ (numeral_ne_nil hb _)]

theorem numeral_canonical (hb : 1 < b) (n : Nat) : Canonical b (numeral b n) := by
  refine ⟨numeral_ne_nil hb n, ?_, ?_⟩
  · apply byDigits hb (P := fun n => ∀ d ∈ numeral b n, d < b)
    · intro n h d hd
      rw [numeral_lt h, List.mem_singleton] at hd
      rwa [hd]
    · intro n h ih d hd
      rw [numeral_ge hb h, List.mem_append, List.mem_singleton] at hd
      rcases hd with hd | rfl
      · exact ih d hd
      · exact Nat.mod_lt n (by omega)
  · -- a number that has more than one digit does not begin with a zero
    have hpos : ∀ n, n ≠ 0 → (numeral b n).head? ≠ some 0 := by
      apply byDigits hb (P := fun n => n ≠ 0 → (numeral b n).head? ≠ some 0)
      · intro n h h0
        rw [numeral_lt h]
        simpa using h0
      · intro n h ih _
        rw [head_numeral_ge hb h]
        exact ih (Nat.div_pos h (by omega)).ne'
    intro hlead
    have h0 : n = 0 := by
      by_contra h0
      exact hpos n h0 hlead
    rw [h0]
    rfl

/-! ## Uniqueness -/

theorem value_eq_ofDigits (b : Nat) (ds : List Nat) : value b ds = Nat.ofDigits b ds.reverse := by
  induction ds using List.reverseRecOn with
  | nil => rfl
  | append_singleton ds d ih =>
    rw [value_append, ih, List.reverse_append, List.reverse_singleton, List.singleton_append, Nat.ofDigits_cons]
    omega

/-- **Canonical digits are the numeral of their value.** -/
theorem Canonical.eq_numeral (hb : 1 < b) (h : Canonical b ds) : ds = numeral b (value b ds) := by
  by_cases hz : ds.head? = some 0
  · rw [h.lead hz]
    rfl
  · have hdigits : Nat.digits b (value b ds) = ds.reverse := by
      rw [value_eq_ofDigits]
      apply Nat.digits_ofDigits b hb
      · exact fun d hd => h.digits d (List.mem_reverse.mp hd)
      · intro hne hlast
        rw [List.getLast_reverse] at hlast
        exact hz (by rw [List.head?_eq_some_head h.ne_nil, hlast])
    have h0 : value b ds ≠ 0 := by
      intro h0
      rw [h0, Nat.digits_zero] at hdigits
      exact h.ne_nil (List.reverse_eq_nil_iff.mp hdigits.symm)
    rw [numeral, if_neg h0, hdigits, List.reverse_reverse]

/-! ## Lengths -/

theorem length_numeral_ge (hb : 1 < b) (h : b ≤ n) : (numeral b n).length = (numeral b (n / b)).length + 1 := by
  rw [numeral_ge hb h, List.length_append, List.length_singleton]

theorem length_numeral_le (hb : 1 < b) {k : Nat} (h : n < b ^ (k + 1)) : (numeral b n).length ≤ k + 1 := by
  induction k generalizing n with
  | zero =>
    rw [Nat.zero_add, pow_one] at h
    rw [numeral_lt h, List.length_singleton]
  | succ k ih =>
    rcases Nat.lt_or_ge n b with hlt | hge
    · rw [numeral_lt hlt]
      exact Nat.succ_le_succ (Nat.zero_le _)
    · rw [length_numeral_ge hb hge]
      refine Nat.succ_le_succ (ih ?_)
      rw [pow_succ] at h
      exact Nat.div_lt_of_lt_mul (by rwa [Nat.mul_comm])

theorem value_lt (hd : ∀ d ∈ ds, d < b) : value b ds < b ^ ds.length := by
  induction ds using List.reverseRecOn with
  | nil => exact Nat.one_pos
  | append_singleton ds d ih =>
    have hlt := ih fun e he => hd e (List.mem_append_left _ he)
    have hlast := hd d (List.mem_append_right _ List.mem_cons_self)
    rw [value_append, List.length_append, List.length_singleton, pow_succ]
    calc b * value b ds + d < b * value b ds + b := Nat.add_lt_add_left hlast _
      _ = (value b ds + 1) * b := by ring
      _ ≤ b ^ ds.length * b := Nat.mul_le_mul_right b hlt

/-- Digits of the same value are at least as many. -/
theorem Canonical.shortest (hb : 1 < b) (h : Canonical b ds) {es : List Nat} (hne : es ≠ []) (hes : ∀ e ∈ es, e < b)
    (hv : value b es = value b ds) : ds.length ≤ es.length := by
  obtain ⟨k, hk⟩ := Nat.exists_eq_succ_of_ne_zero (fun h0 => hne (List.length_eq_zero_iff.mp h0))
  rw [h.eq_numeral hb, hk]
  apply length_numeral_le hb
  rw [← hv, ← Nat.succ_eq_add_one, ← hk]
  exact value_lt hes

end Numerals
