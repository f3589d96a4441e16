import Raampjes.Tty.Itoa

/-!
# Printing and parsing decimal numbers

What `itoa` prints for base 10, and what `atoi` makes of it.

- `signed_returns`: above `INT_MIN`, the sign and the digits of the absolute value are stored;
- `atoi_returns`: `atoi` gives the number of a sign and digits back;
- `prints_back_iff`: both printers print what `atoi` reads back, for every number but `INT_MIN`.
-/

namespace Raampjes.Print

open Progs Numerals Libc

/-- The minus sign of a negative number. -/
def sign (n : Int) : List UInt8 := if n < 0 then [45] else []

/-- The shortest decimal text of `n`. -/
structure Decimal (n : Int) (w : List UInt8) : Prop where
  text : ∃ v, w = sign n ++ v ∧ Numeral 10 n.natAbs v ∧ ∀ v', decode 10 v' = some n.natAbs → v.length ≤ v'.length

/-- `itoa` prints the shortest decimal text of `n`, and `atoi` gives `n` back. -/
def PrintsBack (itoa : Int → Nat → Int → OnChars Nat) (n : Int) (s : Nat) (s0 : Chars) : Prop :=
  ∃ w t, Returns (itoa n s 10) s0 s t ∧ Decimal n w ∧ CString t.mem s w ∧
    ∀ b : Bytes, b.mem = t.mem → ∃ u, Returns (atoi s) b n u

/-- The decimal text of a number. -/
def decimalText (n : Int) : List UInt8 := sign n ++ (numeral 10 n.natAbs).map glyph

theorem decimalText_decimal (n : Int) : Decimal n (decimalText n) := by
  refine ⟨_, rfl, glyphs_numeral (by decide) (by decide) _, fun v' h => ?_⟩
  obtain ⟨ds, hne, rfl, hlt, hv⟩ := (decode_eq_some (by decide)).mp h
  rw [List.length_map, List.length_map]
  exact (numeral_canonical (by decide) _).shortest (by decide) hne hlt (hv.trans (value_numeral (by decide) _).symm)

/-- The text is determined by the number. -/
theorem Decimal.unique {n : Int} {w : List UInt8} (h : Decimal n w) : w = decimalText n := by
  obtain ⟨v, rfl, hv, -⟩ := h.text
  rw [hv.unique (by decide) (by decide), decimalText]

/-! ## `itoa` -/

theorem int_of_small {n : Int} (h : -2 ^ 31 ≤ n) (h' : n < 2 ^ 31) : int n = n := by
  unfold int
  apply Int.bmod_eq_of_le <;> omega

theorem signPrefix_returns {n : Int} (hn : -2 ^ 31 < n) (p : Nat) (s : Chars) : ∃ t,
    Returns (signPrefix n p) s ((n.natAbs : Int), p + (sign n).length) t ∧
      Wrote p (sign n) (List.range (sign n).length) s t := by
  unfold signPrefix sign
  by_cases hneg : n < 0
  · obtain ⟨t, ht, hw⟩ := store_wrote p 45 s
    have habs : int (-n) = n.natAbs := by
      rw [int_of_small (by omega) (by omega)]
      omega
    refine ⟨t, ?_, ?_⟩
    · rw [if_pos hneg, if_pos hneg, Returns.bind_iff ht, habs]
      exact pure_ok.mpr ⟨rfl, rfl⟩
    · rw [if_pos hneg]
      exact hw
  · have habs : (n.natAbs : Int) = n := by omega
    refine ⟨s, ?_, ?_⟩
    · rw [if_neg hneg, if_neg hneg, habs]
      exact pure_ok.mpr ⟨rfl, rfl⟩
    · rw [if_neg hneg]
      exact Wrote.refl p s

theorem length_sign_le (n : Int) : (sign n).length ≤ 1 := by
  unfold sign
  split <;> simp

theorem length_digits_le {n : Int} (hn : -2 ^ 31 < n) (hn' : n < 2 ^ 31) : (numeral 10 n.natAbs).length ≤ 10 :=
  length_numeral_le (k := 9) (by decide) (by omega)

/-- Above `INT_MIN`, what is stored is the sign and the digits of the absolute value. -/
theorem signed_returns {n : Int} (hn : -2 ^ 31 < n) (hn' : n < 2 ^ 31) (s : Nat) (s0 : Chars) :
    ∃ o t, Returns (signed n s 10) s0 s t ∧ Wrote s (decimalText n ++ [0]) o s0 t := by
  have hsign := length_sign_le n
  have hlen := length_digits_le hn hn'
  obtain ⟨t, ht, hw⟩ := signPrefix_returns hn s s0
  obtain ⟨u, v, hu, hv, hw'⟩ := prefixed_returns (b := 10) (n := n.natAbs) (by decide) (by decide) (by omega)
    (s + (sign n).length) t
  have hboth := hw.append hw' (by
    rw [List.length_append, List.length_append, List.length_map, List.length_singleton]
    simp only [leading, show ¬(10 = 16) by decide, if_false, List.length_nil]
    omega)
  refine ⟨_, v, ?_, by rw [decimalText, List.append_assoc]; exact hboth⟩
  rw [signed, Returns.bind_iff ht]
  refine (Returns.bind_iff hu _).mpr ?_
  refine (Returns.bind_iff hv _).mpr ?_
  exact pure_ok.mpr ⟨rfl, rfl⟩

/-! ## `atoi` -/

theorem char_glyph {d : Nat} (hd : d < 10) : char (glyph d) = 48 + (d : Int) := by
  have : ∀ d : Fin 10, char (glyph d) = 48 + (d : Int) := by decide
  exact this ⟨d, hd⟩

theorem le_foldl (ds : List Nat) (v : Nat) : v ≤ ds.foldl (fun v d => 10 * v + d) v := by
  induction ds generalizing v with
  | nil => exact Nat.le_refl v
  | cons d ds ih => exact Nat.le_trans (by omega) (ih (10 * v + d))

/-- The loop of `atoi` over digits whose value fits. -/
theorem atoiFrom_returns (str : Nat) {ds : List Nat} (hds : ∀ d ∈ ds, d < 10) (i ret : Nat) (b : Bytes)
    (hmem : ∀ (j : Nat) (h : j < ds.length), b.mem ((str + (i + j)) % 2 ^ 32) = glyph ds[j])
    (hlt : ds.foldl (fun v d => 10 * v + d) ret < 2 ^ 31) :
    ∃ u, Returns (atoiFrom str ds.length i ret) b (some ((ds.foldl (fun v d => 10 * v + d) ret : Nat) : Int)) u := by
  induction ds generalizing i ret b with
  | nil => exact ⟨b, pure_ok.mpr ⟨rfl, rfl⟩⟩
  | cons d ds ih =>
    obtain ⟨hd, hds⟩ := List.forall_mem_cons.mp hds
    obtain ⟨t, ht, hlook⟩ := load_returns (P := fun _ => True) b (p := str + i) trivial
    rw [show b.mem ((str + i) % 2 ^ 32) = glyph d from hmem 0 (Nat.succ_pos _)] at ht
    have hsmall : 10 * ret + d < 2 ^ 31 := Nat.lt_of_le_of_lt (le_foldl ds _) hlt
    have hnext : int ((ret : Int) * 10 + (char (glyph d) - 48)) = ((10 * ret + d : Nat) : Int) := by
      rw [char_glyph hd, int_of_small (by omega) (by omega)]
      push_cast
      ring
    obtain ⟨u, hu⟩ := ih hds (i + 1) (10 * ret + d) t
      (fun j hj => by
        rw [hlook.mem, Nat.add_assoc i, Nat.add_comm 1 j]
        exact hmem (j + 1) (Nat.succ_lt_succ hj)) hlt
    refine ⟨u, ?_⟩
    rw [List.length_cons, atoiFrom, Returns.bind_iff ht, if_pos (by rw [char_glyph hd]; omega), hnext]
    exact hu

/-- A decimal text begins with a minus sign exactly when the number is negative. -/
theorem decimalText_cons (n : Int) : ∃ c v, decimalText n = c :: v ∧ (char c = 45 ↔ n < 0) := by
  have hc := numeral_canonical (b := 10) (by decide) n.natAbs
  by_cases hneg : n < 0
  · refine ⟨45, _, by rw [decimalText, sign, if_pos hneg]; rfl, ?_⟩
    exact iff_of_true (by decide) hneg
  · obtain ⟨d, ds, hds⟩ := List.exists_cons_of_ne_nil hc.ne_nil
    refine ⟨glyph d, ds.map glyph, by rw [decimalText, sign, if_neg hneg, hds]; rfl, ?_⟩
    rw [char_glyph (hc.digits d (by rw [hds]; exact List.mem_cons_self))]
    omega

/-- **`atoi` reads a decimal text.** -/
theorem atoi_returns {n : Int} (hn : -2 ^ 31 < n) (hn' : n < 2 ^ 31) {s : Nat} {b : Bytes}
    (h : CString b.mem s (decimalText n)) : ∃ u, Returns (atoi s) b n u := by
  have hc := numeral_canonical (b := 10) (by decide) n.natAbs
  have hv : (numeral 10 n.natAbs).foldl (fun v d => 10 * v + d) 0 = n.natAbs := value_numeral (by decide) n.natAbs
  have hlen : (decimalText n).length = (sign n).length + (numeral 10 n.natAbs).length := by
    rw [decimalText, List.length_append, List.length_map]
  obtain ⟨c, v, hcv, hminus⟩ := decimalText_cons n
  obtain ⟨t, ht, hlook⟩ := strlen_returns h
  obtain ⟨t', ht', hlook'⟩ := load_returns (P := fun _ => True) t (p := s) trivial
  have hmem : t'.mem = b.mem := hlook'.mem.trans hlook.mem
  have hfirst : t.mem (s % 2 ^ 32) = c := by
    rw [hlook.mem]
    rw [hcv] at h
    exact h.head.1
  -- the characters behind the sign
  obtain ⟨u, hu⟩ := atoiFrom_returns s hc.digits (sign n).length 0 t'
    (fun j hj => by
      rw [hmem, (h.byte (i := (sign n).length + j) (by omega)).1]
      simp only [decimalText]
      rw [List.getElem_append_right (Nat.le_add_right _ j), List.getElem_map]
      simp only [Nat.add_sub_cancel_left])
    (by rw [hv]; omega)
  rw [hv, Nat.cast_zero] at hu
  refine ⟨u, ?_⟩
  rw [atoi, Returns.bind_iff ht, Returns.bind_iff ht', hfirst, hlen]
  by_cases hneg : n < 0
  · have hsign : (sign n).length = 1 := by rw [sign, if_pos hneg]; rfl
    rw [hsign] at hu ⊢
    rw [if_pos (hminus.mpr hneg)]
    dsimp only
    rw [Nat.add_sub_cancel_left, Returns.bind_iff hu]
    refine pure_ok.mpr ⟨?_, rfl⟩
    rw [if_pos (hminus.mpr hneg), int_of_small (by omega) (by omega)]
    omega
  · have hsign : (sign n).length = 0 := by rw [sign, if_neg hneg]; rfl
    rw [hsign] at hu ⊢
    rw [if_neg fun h => hneg (hminus.mp h)]
    dsimp only
    rw [Nat.zero_add, Nat.sub_zero, Returns.bind_iff hu]
    refine pure_ok.mpr ⟨?_, rfl⟩
    rw [if_neg fun h => hneg (hminus.mp h)]
    omega

/-! ## Both printers -/

theorem decimalText_nonzero (n : Int) : (0 : UInt8) ∉ decimalText n := by
  have hglyph : ∀ d : Fin 10, glyph d ≠ 0 := by decide
  intro h
  rcases List.mem_append.mp h with h | h
  · unfold sign at h
    split at h
    · simp at h
    · cases h
  · obtain ⟨d, hd, hz⟩ := List.mem_map.mp h
    exact hglyph ⟨d, (numeral_canonical (by decide) _).digits d hd⟩ hz

/-- Bytes that were stored with a terminator are a string. -/
theorem Wrote.cstring {p : Nat} {w : List UInt8} {o : List Nat} {s t : Chars} (h : Wrote p (w ++ [0]) o s t)
    (hfits : p + w.length < 2 ^ 32) (hnz : (0 : UInt8) ∉ w) : CString t.mem p w := by
  have hlen : (w ++ [0]).length = w.length + 1 := by rw [List.length_append, List.length_singleton]
  refine ⟨fun i hi => ?_, ?_, hnz, hfits⟩
  · have := h.held i (by omega)
    rwa [Nat.mod_eq_of_lt (by omega), List.getElem_append_left hi] at this
  · have := h.held w.length (by omega)
    rwa [Nat.mod_eq_of_lt hfits, List.getElem_concat_length rfl] at this

theorem signed_prints_back {n : Int} (hn : -2 ^ 31 < n) (hn' : n < 2 ^ 31) {s : Nat} (hs : s + 12 ≤ 2 ^ 32) (s0 : Chars) :
    PrintsBack signed n s s0 := by
  have hsign := length_sign_le n
  have hlen := length_digits_le hn hn'
  obtain ⟨o, t, ht, hw⟩ := signed_returns hn hn' s s0
  have hstr := hw.cstring (by rw [decimalText, List.length_append, List.length_map]; omega) (decimalText_nonzero n)
  exact ⟨_, t, ht, decimalText_decimal n, hstr, fun b hb => atoi_returns hn hn' (hb ▸ hstr)⟩

/-- **Both printers print what `atoi` reads back**, for every number but `INT_MIN`. -/
theorem prints_back_iff {n : Int} (hn : -2 ^ 31 ≤ n) (hn' : n < 2 ^ 31) {s : Nat} (hs : s + 12 ≤ 2 ^ 32) (s0 : Chars) :
    (PrintsBack itoa n s s0 ↔ n ≠ -2 ^ 31) ∧ (PrintsBack Initrd.itoa n s s0 ↔ n ≠ -2 ^ 31) := by
  have hboth : PrintsBack signed n s s0 ↔ n ≠ -2 ^ 31 := by
    constructor
    · rintro ⟨w, t, ht, -⟩ rfl
      exact stop_ok Fault.outside ht
    · intro hne
      exact signed_prints_back (by omega) hn' hs s0
  exact ⟨hboth, hboth⟩

/-- A small negative number. -/
theorem prints_back_minus_seven :
    (PrintsBack itoa (-7) 0 ⟨fun _ => 0, []⟩ ↔ (-7 : Int) ≠ -2 ^ 31) ∧
      (PrintsBack Initrd.itoa (-7) 0 ⟨fun _ => 0, []⟩ ↔ (-7 : Int) ≠ -2 ^ 31) :=
  prints_back_iff (by decide) (by decide) (by decide) _

/-- `INT_MIN` is not printed at all. -/
theorem int_min_not_printed : ¬ PrintsBack itoa (-2147483648) 0 ⟨fun _ => 0, []⟩ ∧
    ¬ PrintsBack Initrd.itoa (-2147483648) 0 ⟨fun _ => 0, []⟩ := by
  refine ⟨?_, ?_⟩ <;>
  · rintro ⟨w, t, ht, -⟩
    exact stop_ok Fault.outside ht

end Raampjes.Print
