import Raampjes.Lib.Numerals
import Raampjes.Libc.String

/-!
# `itoa` and `uitoa`

The kernel's two printers of numbers and the calculator's copy of the first, over a memory of bytes that keeps the order
of its stores. One loop counts the digits upwards, the other fills them in downwards.

- `Wrote`: the bytes that were stored, in which order, and nothing else;
- `count_returns`, `fill_returns`: the two loops agree on the number of digits; `digits_returns`: both with the terminator;
- `Numeral`: a numeral as text, which `glyphs_numeral` gives and `Numeral.unique` determines;
- `uitoa_prints`: what `uitoa` stores, for every number and both bases.
-/

namespace Raampjes.Print

open Progs Numerals

/-- Memory by bytes, and the addresses that were stored to, in order. -/
structure Chars where
  mem : Nat → UInt8
  writes : List Nat

/-- Why a printing function ends before it returns. -/
inductive Fault
  /-- A loop that never ends. -/
  | endless
  /-- The processor's fault on a division. -/
  | divides
  /-- An element outside of an array is used. -/
  | outside
  /-- The calls nest deeper than their bound. -/
  | nested
  /-- The arguments are used up. -/
  | argument
  deriving DecidableEq, Repr

abbrev OnChars (α : Type) := Prog Chars Fault α

/-- `*p = b`. -/
def store (p : Nat) (b : UInt8) : OnChars Unit :=
  update fun s => { mem := Function.update s.mem (p % 2 ^ 32) b, writes := s.writes ++ [p % 2 ^ 32] }

/-! ## The functions -/

/-- `"0123456789ABCDEF"`, with its terminator. -/
def digitTable : List UInt8 := [48, 49, 50, 51, 52, 53, 54, 55, 56, 57, 65, 66, 67, 68, 69, 70, 0]

/-- `digit[k]`. -/
def digit (k : Int) : OnChars UInt8 :=
  if 0 ≤ k ∧ k < digitTable.length then pure (digitTable.getD k.toNat 0) else stop .outside

/-- `i /= base`. -/
def divide (i base : Int) : OnChars Int := do
  onlyIf (base = 0 ∨ i = -2 ^ 31 ∧ base = -1) (stop .divides)
  pure (i.tdiv base)

/-- A value of 32 bits is zero after so many divisions by two or more; divided by one it stays. -/
def divisions : Nat := 32

/-- `do { p++; i /= base; } while (i > 0);` for the pair of `i` and `p`. -/
def countRound (base : Int) (x : Int × Nat) : OnChars ((Int × Nat) ⊕ Nat) := do
  let i ← divide x.1 base
  pure (if 0 < i then .inl (i, x.2 + 1) else .inr (x.2 + 1))

def countDigits (base n : Int) (p : Nat) : OnChars Nat := forever .endless (countRound base) divisions (n, p)

/-- `do { *--p = digit[n%base]; n /= base; } while (n > 0);` for the pair of `n` and `p`. -/
def fillRound (base : Int) (x : Int × Nat) : OnChars ((Int × Nat) ⊕ Unit) := do
  onlyIf (base = 0 ∨ x.1 = -2 ^ 31 ∧ base = -1) (stop .divides)
  let c ← digit (x.1.tmod base)
  store (x.2 - 1) c
  let n ← divide x.1 base
  pure (if 0 < n then .inl (n, x.2 - 1) else .inr ())

/-- What all three functions end with. -/
def digits (n base : Int) (p : Nat) : OnChars Unit := do
  let p ← countDigits base n p
  store p 0
  forever .endless (fillRound base) divisions (n, p)

/-- `0x`, for base 16. -/
def hexPrefix (base : Int) (p : Nat) : OnChars Nat :=
  if base = 16 then do
    store p 48
    store (p + 1) 120
    pure (p + 2)
  else pure p

/-- The sign of a negative number, whose negation goes on. -/
def signPrefix (n : Int) (p : Nat) : OnChars (Int × Nat) :=
  if n < 0 then do
    store p 45
    pure (Libc.int (-n), p + 1)
  else pure (n, p)

/-- The text that the kernel and the calculator have in common. -/
def signed (n : Int) (s : Nat) (base : Int) : OnChars Nat := do
  let (n, p) ← signPrefix n s
  let p ← hexPrefix base p
  digits n base p
  pure s

/-- `kernel/itoa.c`. -/
def itoa (n : Int) (s : Nat) (base : Int) : OnChars Nat := signed n s base

/-- An unsigned division takes `base` as unsigned too. -/
def uitoa (n s : Nat) (base : Int) : OnChars Nat := do
  let p ← hexPrefix base s
  digits n (base % 2 ^ 32) p
  pure s

end Raampjes.Print

namespace Raampjes.Initrd

/-- `initrd/bc/main.c`. -/
def itoa (n : Int) (s : Nat) (base : Int) : Print.OnChars Nat := Print.signed n s base

end Raampjes.Initrd

namespace Raampjes.Print

open Progs Numerals

/-! ## What is stored -/

/-- The bytes `bs` are stored at `p`, nothing else is, and the offsets stored to are those of `order`. -/
structure Wrote (p : Nat) (bs : List UInt8) (order : List Nat) (s t : Chars) : Prop where
  held : ∀ (i : Nat) (h : i < bs.length), t.mem ((p + i) % 2 ^ 32) = bs[i]
  kept : ∀ q, (∀ i < bs.length, q ≠ (p + i) % 2 ^ 32) → t.mem q = s.mem q
  writes : t.writes = s.writes ++ order.map fun i => (p + i) % 2 ^ 32

section Writes

variable {p : Nat} {bs cs : List UInt8} {o o' : List Nat} {s t u : Chars}

theorem Wrote.refl (p : Nat) (s : Chars) : Wrote p [] [] s s :=
  ⟨fun i h => absurd h (Nat.not_lt_zero i), fun _ _ => rfl, by simp⟩

theorem store_wrote (p : Nat) (b : UInt8) (s : Chars) : ∃ t, Returns (store p b) s () t ∧ Wrote p [b] [0] s t := by
  refine ⟨_, rfl, ?_, ?_, rfl⟩
  · intro i hi
    obtain rfl : i = 0 := by rwa [List.length_singleton, Nat.lt_one_iff] at hi
    exact Function.update_self _ _ _
  · intro q hq
    exact Function.update_of_ne (hq 0 Nat.one_pos) _ _

theorem map_offset (p k : Nat) (o : List Nat) :
    (o.map (k + ·)).map (fun i => (p + i) % 2 ^ 32) = o.map fun i => (p + k + i) % 2 ^ 32 := by
  simp only [List.map_map, Function.comp_def, Nat.add_assoc]

/-- The bytes behind are stored next. -/
theorem Wrote.append (h : Wrote p bs o s t) (h' : Wrote (p + bs.length) cs o' t u)
    (hlen : bs.length + cs.length ≤ 2 ^ 32) : Wrote p (bs ++ cs) (o ++ o'.map (bs.length + ·)) s u := by
  refine ⟨?_, ?_, ?_⟩
  · intro i hi
    rw [List.length_append] at hi
    by_cases hib : i < bs.length
    · rw [h'.kept _ (by omega), h.held i hib, List.getElem_append_left hib]
    · have := h'.held (i - bs.length) (by omega)
      rw [List.getElem_append_right (Nat.le_of_not_lt hib), ← this]
      congr 2
      omega
  · intro q hq
    rw [List.length_append] at hq
    rw [h'.kept q fun i hi => by rw [Nat.add_assoc]; exact hq _ (by omega), h.kept q fun i hi => hq i (by omega)]
  · rw [h'.writes, h.writes, List.map_append, map_offset, List.append_assoc]

/-- The bytes in front are stored next. -/
theorem Wrote.prepend (h : Wrote (p + bs.length) cs o s t) (h' : Wrote p bs o' t u)
    (hlen : bs.length + cs.length ≤ 2 ^ 32) : Wrote p (bs ++ cs) (o.map (bs.length + ·) ++ o') s u := by
  refine ⟨?_, ?_, ?_⟩
  · intro i hi
    rw [List.length_append] at hi
    by_cases hib : i < bs.length
    · rw [h'.held i hib, List.getElem_append_left hib]
    · have := h.held (i - bs.length) (by omega)
      rw [h'.kept _ (by omega), List.getElem_append_right (Nat.le_of_not_lt hib), ← this]
      congr 2
      omega
  · intro q hq
    rw [List.length_append] at hq
    rw [h'.kept q fun i hi => hq i (by omega), h.kept q fun i hi => by rw [Nat.add_assoc]; exact hq _ (by omega)]
  · rw [h'.writes, h.writes, List.map_append, map_offset, List.append_assoc]

end Writes

/-! ## The loops -/

/-- The character of a digit. -/
def glyph (d : Nat) : UInt8 := digitTable.getD d 0

section Loops

variable {b : Nat}

theorem divide_returns (hb : 1 < b) (n : Nat) (s : Chars) : Returns (divide n b) s ((n / b : Nat) : Int) s := by
  unfold divide
  rw [onlyIf_neg (by simp; omega), Returns.bind_iff (pure_ok.mpr ⟨rfl, rfl⟩), ← Int.ofNat_tdiv]
  exact pure_ok.mpr ⟨rfl, rfl⟩

theorem digit_returns {d : Nat} (hd : d < digitTable.length) (s : Chars) : Returns (digit d) s (glyph d) s := by
  unfold digit
  rw [if_pos ⟨Int.natCast_nonneg d, Int.ofNat_lt.mpr hd⟩, Int.toNat_natCast]
  exact pure_ok.mpr ⟨rfl, rfl⟩

/-- The first loop ends as many bytes further as the number has digits. -/
theorem count_returns (hb : 1 < b) (n p : Nat) {k : Nat} (hk : (numeral b n).length ≤ k) (s : Chars) :
    Returns (forever .endless (countRound b) k (n, p)) s (p + (numeral b n).length) s := by
  revert p k
  apply byDigits hb (P := fun n => ∀ p k, (numeral b n).length ≤ k →
    Returns (forever .endless (countRound b) k ((n : Int), p)) s (p + (numeral b n).length) s)
  · intro n hn p k hk
    rw [numeral_lt hn, List.length_singleton] at hk ⊢
    obtain ⟨k, rfl⟩ := Nat.exists_eq_add_of_le' hk
    refine forever_succ.mpr (Or.inl ?_)
    rw [countRound, Returns.bind_iff (divide_returns hb n s), Nat.div_eq_of_lt hn, if_neg (by decide)]
    exact pure_ok.mpr ⟨rfl, rfl⟩
  · intro n hn ih p k hk
    rw [length_numeral_ge hb hn] at hk ⊢
    obtain ⟨k, rfl⟩ := Nat.exists_eq_add_of_le' (Nat.le_of_add_left_le hk)
    have hpos : (0 : Int) < (n / b : Nat) := Int.ofNat_lt.mpr (Nat.div_pos hn (by omega))
    refine forever_succ.mpr (Or.inr ⟨((n / b : Nat), p + 1), s, ?_, ?_⟩)
    · rw [countRound, Returns.bind_iff (divide_returns hb n s), if_pos hpos]
      exact pure_ok.mpr ⟨rfl, rfl⟩
    · have hp : p + ((numeral b (n / b)).length + 1) = p + 1 + (numeral b (n / b)).length := by omega
      rw [hp]
      exact ih (p + 1) k (by omega)

/-- The first round of the second loop: the last digit is stored. -/
theorem fillRound_returns (hb : 1 < b) (hb' : b ≤ 16) (n p : Nat) (s : Chars) : ∃ t,
    Returns (fillRound b ((n : Int), p + 1)) s
      (if (0 : Int) < (n / b : Nat) then .inl (((n / b : Nat) : Int), p) else .inr ()) t ∧
    Wrote p [glyph (n % b)] [0] s t := by
  have hlt : n % b < digitTable.length := by
    have := Nat.mod_lt n (show b > 0 by omega)
    simp only [digitTable, List.length_cons, List.length_nil]
    omega
  obtain ⟨t, ht, hw⟩ := store_wrote p (glyph (n % b)) s
  refine ⟨t, ?_, hw⟩
  unfold fillRound
  rw [onlyIf_neg (by simp; omega), Returns.bind_iff (pure_ok.mpr ⟨rfl, rfl⟩), ← Int.ofNat_tmod,
    Returns.bind_iff (digit_returns hlt s), Nat.add_sub_cancel, Returns.bind_iff ht,
    Returns.bind_iff (divide_returns hb n t)]
  exact pure_ok.mpr ⟨rfl, rfl⟩

/-- The second loop fills the digits in, the last one first. -/
theorem fill_returns (hb : 1 < b) (hb' : b ≤ 16) (n p : Nat) {k : Nat} (hk : (numeral b n).length ≤ k) (hk' : k < 2 ^ 32)
    (s : Chars) : ∃ t, Returns (forever .endless (fillRound b) k (n, p + (numeral b n).length)) s () t ∧
      Wrote p ((numeral b n).map glyph) (List.range (numeral b n).length).reverse s t := by
  revert k s
  apply byDigits hb (P := fun n => ∀ k, (numeral b n).length ≤ k → k < 2 ^ 32 → ∀ s : Chars, ∃ t,
    Returns (forever .endless (fillRound b) k ((n : Int), p + (numeral b n).length)) s () t ∧
      Wrote p ((numeral b n).map glyph) (List.range (numeral b n).length).reverse s t)
  · intro n hn k hk _ s
    obtain ⟨t, ht, hw⟩ := fillRound_returns hb hb' n p s
    rw [numeral_lt hn, List.length_singleton] at hk ⊢
    obtain ⟨k, rfl⟩ := Nat.exists_eq_add_of_le' hk
    rw [Nat.div_eq_of_lt hn, if_neg (by decide)] at ht
    rw [Nat.mod_eq_of_lt hn] at hw
    exact ⟨t, forever_succ.mpr (Or.inl ht), hw⟩
  · intro n hn ih k hk hk' s
    rw [length_numeral_ge hb hn] at hk ⊢
    obtain ⟨k, rfl⟩ := Nat.exists_eq_add_of_le' (Nat.le_of_add_left_le hk)
    have hpos : (0 : Int) < (n / b : Nat) := Int.ofNat_lt.mpr (Nat.div_pos hn (by omega))
    obtain ⟨t, ht, hw⟩ := fillRound_returns hb hb' n (p + (numeral b (n / b)).length) s
    rw [if_pos hpos] at ht
    obtain ⟨u, hu, hw'⟩ := ih k (by omega) (by omega) t
    refine ⟨u, forever_succ.mpr (Or.inr ⟨_, t, ht, hu⟩), ?_⟩
    rw [← List.length_map (f := glyph)] at hw
    have hboth := hw.prepend hw' (by rw [List.length_map, List.length_singleton]; omega)
    rw [numeral_ge hb hn, List.map_append, List.range_succ, List.reverse_append]
    rwa [List.length_map] at hboth

/-- Both loops and the terminator. -/
theorem digits_returns (hb : 1 < b) (hb' : b ≤ 16) {n : Nat} (hn : n < 2 ^ 32) (p : Nat) (s : Chars) : ∃ t,
    Returns (digits n b p) s () t ∧ Wrote p ((numeral b n).map glyph ++ [0])
      (List.range ((numeral b n).length + 1)).reverse s t := by
  have hlen : (numeral b n).length ≤ divisions := by
    apply length_numeral_le hb (k := 31)
    exact Nat.lt_of_lt_of_le hn (Nat.pow_le_pow_left hb 32)
  obtain ⟨t, ht, hw⟩ := store_wrote (p + (numeral b n).length) 0 s
  obtain ⟨u, hu, hw'⟩ := fill_returns hb hb' n p hlen (by decide) t
  refine ⟨u, ?_, ?_⟩
  · rw [digits, countDigits, Returns.bind_iff (count_returns hb n p hlen s), Returns.bind_iff ht]
    exact hu
  · rw [← List.length_map (f := glyph)] at hw
    have hboth := hw.prepend hw' (by
      rw [List.length_map, List.length_singleton]
      exact Nat.le_trans (Nat.succ_le_succ hlen) (by decide))
    rw [List.range_succ, List.reverse_append]
    rwa [List.length_map] at hboth

end Loops

/-! ## Numerals as text -/

/-- The value of a decimal or hexadecimal digit. -/
def charValue (c : UInt8) : Option Nat :=
  if 48 ≤ c.toNat ∧ c.toNat ≤ 57 then some (c.toNat - 48)
  else if 65 ≤ c.toNat ∧ c.toNat ≤ 70 then some (c.toNat - 55)
  else none

/-- The value of a text of digits of the base. -/
def decode (b : Nat) (w : List UInt8) : Option Nat :=
  if w = [] then none else (w.mapM fun c => (charValue c).filter (· < b)).map (value b)

/-- The text is a numeral of `n` without leading zeros. -/
structure Numeral (b n : Nat) (w : List UInt8) : Prop where
  decodes : decode b w = some n
  lead : w.head? = some 48 → w = [48]

section Numerals

variable {b n : Nat} {w : List UInt8}

theorem charValue_eq_some {c : UInt8} {d : Nat} : charValue c = some d ↔ d < 16 ∧ c = glyph d := by
  have hglyph : ∀ d : Fin 16, charValue (glyph d) = some d.val := by decide
  have hsmall : ∀ d : Fin 10, glyph d = UInt8.ofNat (d + 48) := by decide
  have hlarge : ∀ d : Fin 6, glyph (d + 10) = UInt8.ofNat (d + 10 + 55) := by decide
  constructor
  · intro h
    unfold charValue at h
    split at h
    · obtain rfl := Option.some.inj h
      refine ⟨by omega, ?_⟩
      have := hsmall ⟨c.toNat - 48, by omega⟩
      rw [this, Nat.sub_add_cancel (by omega), UInt8.ofNat_toNat]
    · split at h
      · obtain rfl := Option.some.inj h
        refine ⟨by omega, ?_⟩
        have := hlarge ⟨c.toNat - 65, by omega⟩
        rw [show c.toNat - 65 + 10 = c.toNat - 55 by omega] at this
        rw [this, Nat.sub_add_cancel (by omega), UInt8.ofNat_toNat]
      · cases h
  · rintro ⟨hd, rfl⟩
    exact hglyph ⟨d, hd⟩

/-- A text of digits is the characters of their values. -/
theorem mapM_charValue (hb : b ≤ 16) {ds : List Nat} :
    (w.mapM fun c => (charValue c).filter (· < b)) = some ds ↔ w = ds.map glyph ∧ ∀ d ∈ ds, d < b := by
  induction w generalizing ds with
  | nil =>
    rw [List.mapM_nil]
    constructor
    · intro h
      obtain rfl := Option.some.inj h
      simp
    · rintro ⟨h, -⟩
      rw [List.map_eq_nil_iff.mp h.symm]
      rfl
  | cons c w ih =>
    have hhead : ∀ d, (charValue c).filter (· < b) = some d ↔ d < b ∧ c = glyph d := by
      intro d
      rw [Option.filter_eq_some_iff, charValue_eq_some, decide_eq_true_iff]
      constructor
      · rintro ⟨⟨_, hc⟩, hd⟩
        exact ⟨hd, hc⟩
      · rintro ⟨hd, hc⟩
        exact ⟨⟨by omega, hc⟩, hd⟩
    rw [List.mapM_cons, Option.bind_eq_bind, Option.bind_eq_some_iff]
    constructor
    · rintro ⟨d, hd, hrest⟩
      obtain ⟨ds', hds', hcons⟩ := Option.bind_eq_some_iff.mp hrest
      obtain rfl := Option.some.inj hcons
      obtain ⟨rfl, hlt⟩ := ih.mp hds'
      obtain ⟨hdb, rfl⟩ := (hhead d).mp hd
      exact ⟨rfl, List.forall_mem_cons.mpr ⟨hdb, hlt⟩⟩
    · rintro ⟨h, hlt⟩
      cases ds with
      | nil => cases h
      | cons d ds =>
        obtain ⟨rfl, rfl⟩ := List.cons.inj h
        obtain ⟨hdb, hlt⟩ := List.forall_mem_cons.mp hlt
        exact ⟨d, (hhead d).mpr ⟨hdb, rfl⟩, Option.bind_eq_some_iff.mpr ⟨ds, ih.mpr ⟨rfl, hlt⟩, rfl⟩⟩

theorem decode_eq_some (hb : b ≤ 16) :
    decode b w = some n ↔ ∃ ds, ds ≠ [] ∧ w = ds.map glyph ∧ (∀ d ∈ ds, d < b) ∧ value b ds = n := by
  unfold decode
  constructor
  · intro h
    split at h
    · cases h
    · rename_i hne
      obtain ⟨ds, hds, hv⟩ := Option.map_eq_some_iff.mp h
      obtain ⟨hw, hlt⟩ := (mapM_charValue hb).mp hds
      exact ⟨ds, fun h0 => hne (by rw [hw, h0]; rfl), hw, hlt, hv⟩
  · rintro ⟨ds, hne, hw, hlt, hv⟩
    rw [if_neg (by rw [hw]; exact fun h0 => hne (List.map_eq_nil_iff.mp h0)), (mapM_charValue hb).mpr ⟨hw, hlt⟩,
      Option.map_some, hv]

/-- A digit is the character `0` only when it is zero. -/
theorem glyph_eq_zero {d : Nat} (hd : d < 16) : glyph d = 48 ↔ d = 0 := by
  have : ∀ d : Fin 16, glyph d = 48 ↔ d.val = 0 := by decide
  exact this ⟨d, hd⟩

theorem glyphs_numeral (hb : 1 < b) (hb' : b ≤ 16) (n : Nat) : Numeral b n ((numeral b n).map glyph) := by
  have hc := numeral_canonical hb n
  refine ⟨(decode_eq_some hb').mpr ⟨numeral b n, hc.ne_nil, rfl, hc.digits, value_numeral hb n⟩, fun h => ?_⟩
  rw [List.head?_map, Option.map_eq_some_iff] at h
  obtain ⟨d, hd, h48⟩ := h
  have hlt := hc.digits d (List.mem_of_mem_head? hd)
  rw [hc.lead (by rw [hd, (glyph_eq_zero (by omega)).mp h48])]
  rfl

/-- **The numeral is determined by its number.** -/
theorem Numeral.unique (hb : 1 < b) (hb' : b ≤ 16) (h : Numeral b n w) : w = (numeral b n).map glyph := by
  obtain ⟨ds, hne, rfl, hlt, rfl⟩ := (decode_eq_some hb').mp h.decodes
  have hc : Canonical b ds := by
    refine ⟨hne, hlt, fun hz => ?_⟩
    have h1 := h.lead (by rw [List.head?_map, hz]; rfl)
    obtain ⟨d, rfl, -⟩ := List.map_eq_singleton_iff.mp h1
    rw [Option.some.inj hz]
  rw [← hc.eq_numeral hb]

end Numerals

/-! ## `uitoa` -/

/-- What stands in front of the digits. -/
def leading (base : Nat) : List UInt8 := if base = 16 then [48, 120] else []

theorem hexPrefix_returns (base p : Nat) (s : Chars) : ∃ t,
    Returns (hexPrefix base p) s (p + (leading base).length) t ∧
      Wrote p (leading base) (List.range (leading base).length) s t := by
  unfold hexPrefix leading
  by_cases h16 : base = 16
  · obtain ⟨t, ht, hw⟩ := store_wrote p 48 s
    obtain ⟨u, hu, hw'⟩ := store_wrote (p + 1) 120 t
    refine ⟨u, ?_, ?_⟩
    · rw [if_pos h16, if_pos (by rw [h16]; rfl), Returns.bind_iff ht, Returns.bind_iff hu]
      exact pure_ok.mpr ⟨rfl, rfl⟩
    · rw [if_pos h16]
      exact hw.append hw' (by decide)
  · refine ⟨s, ?_, ?_⟩
    · rw [if_neg h16, if_neg (by exact_mod_cast h16)]
      exact pure_ok.mpr ⟨rfl, rfl⟩
    · rw [if_neg h16]
      exact Wrote.refl p s

/-- The offsets that are stored to for so many characters in front and so many digits. -/
def order (lead len : Nat) : List Nat := List.range lead ++ (List.range (len + 1)).reverse.map (lead + ·)

/-- What the two functions store for a number that is not negative. -/
theorem prefixed_returns {b n : Nat} (hb : 1 < b) (hb' : b ≤ 16) (hn : n < 2 ^ 32) (p : Nat) (s : Chars) :
    ∃ t u, Returns (hexPrefix b p) s (p + (leading b).length) t ∧
      Returns (digits n b (p + (leading b).length)) t () u ∧
      Wrote p (leading b ++ ((numeral b n).map glyph ++ [0])) (order (leading b).length (numeral b n).length) s u := by
  obtain ⟨t, ht, hw⟩ := hexPrefix_returns b p s
  obtain ⟨u, hu, hw'⟩ := digits_returns hb hb' hn (p + (leading b).length) t
  refine ⟨t, u, ht, hu, hw.append hw' ?_⟩
  have hlead : (leading b).length ≤ 2 := by
    unfold leading
    split <;> simp
  have hlen : (numeral b n).length ≤ 32 := by
    apply length_numeral_le hb (k := 31)
    exact Nat.lt_of_lt_of_le hn (Nat.pow_le_pow_left hb 32)
  rw [List.length_append, List.length_map, List.length_singleton]
  omega

/-- What `uitoa` is to store at `s`: the prefix and the numeral with its terminator, the prefix first and then nothing in
front of the numeral, as many bytes as the first loop counts, and eleven at most. -/
structure Printed (base n s : Nat) (w : List UInt8) (s0 t : Chars) : Prop where
  numeral : Numeral base n w
  unique : ∀ w', Numeral base n w' → w' = w
  counted : ∀ u, Returns (countDigits base n (s + (leading base).length)) u (s + (leading base).length + w.length) u
  stored : ∃ o, Wrote s (leading base ++ (w ++ [0])) (List.range (leading base).length ++ o) s0 t ∧
    o.length = w.length + 1 ∧ ∀ i ∈ o, (leading base).length ≤ i
  fits : (leading base ++ (w ++ [0])).length ≤ 11

/-- A number of 32 bits has ten decimal digits at most, and eight hexadecimal ones. -/
theorem length_le_eleven {base n : Nat} (hn : n < 2 ^ 32) (hbase : base = 10 ∨ base = 16) :
    (leading base).length + (numeral base n).length + 1 ≤ 11 := by
  rcases hbase with rfl | rfl
  · have := length_numeral_le (b := 10) (k := 9) (by decide) (Nat.lt_trans hn (by decide))
    simp only [leading, show ¬(10 = 16) by decide, if_false, List.length_nil]
    omega
  · have := length_numeral_le (b := 16) (k := 7) (by decide) (Nat.lt_of_lt_of_le hn (by decide))
    simp only [leading, if_true, List.length_cons, List.length_nil]
    omega

theorem uitoa_returns {n base : Nat} (hn : n < 2 ^ 32) (hbase : base = 10 ∨ base = 16) (s : Nat) (s0 : Chars) :
    ∃ t, Returns (uitoa n s base) s0 s t ∧ Wrote s (leading base ++ ((numeral base n).map glyph ++ [0]))
      (order (leading base).length (numeral base n).length) s0 t := by
  have hword : (base : Int) % 2 ^ 32 = base := by omega
  obtain ⟨t, u, ht, hu, hw⟩ := prefixed_returns (b := base) (by omega) (by omega) hn s s0
  refine ⟨u, ?_, hw⟩
  rw [uitoa, Returns.bind_iff ht, hword, Returns.bind_iff hu]
  exact pure_ok.mpr ⟨rfl, rfl⟩

/-- **`uitoa` prints the numeral** of every number in both bases. -/
theorem uitoa_prints {n base : Nat} (hn : n < 2 ^ 32) (hbase : base = 10 ∨ base = 16) (s : Nat) (s0 : Chars) :
    ∃ w t, Returns (uitoa n s base) s0 s t ∧ Printed base n s w s0 t := by
  have hb : 1 < base := by omega
  have hb' : base ≤ 16 := by omega
  have hlen := length_le_eleven hn hbase
  obtain ⟨t, ht, hw⟩ := uitoa_returns hn hbase s s0
  refine ⟨(numeral base n).map glyph, t, ht, ?_⟩
  refine ⟨glyphs_numeral hb hb' n, fun w' h => h.unique hb hb', fun v => ?_, ⟨_, hw, ?_, ?_⟩, ?_⟩
  · rw [List.length_map]
    exact count_returns hb n _ (by rw [divisions]; omega) v
  · rw [List.length_map, List.length_reverse, List.length_range, List.length_map]
  · intro i hi
    obtain ⟨j, -, rfl⟩ := List.mem_map.mp hi
    exact Nat.le_add_right _ j
  · rw [List.length_append, List.length_append, List.length_map, List.length_singleton]
    omega

/-- The largest number, in hexadecimal. -/
theorem uitoa_prints_largest :
    ∃ w t, Returns (uitoa 4294967295 0 (16 : Nat)) ⟨fun _ => 0, []⟩ 0 t ∧ Printed 16 4294967295 0 w ⟨fun _ => 0, []⟩ t :=
  uitoa_prints (by decide) (Or.inr rfl) 0 _

end Raampjes.Print
