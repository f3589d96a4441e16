import Raampjes.Lib.While
import Raampjes.Libc.Malloc
import Raampjes.Libc.Stdio

/-!
# Strings in memory

`strlen`, `strncmp`, `strchr`, `memcpy` and `atoi` over a memory of bytes with 32-bit addresses, which records the addresses that are
read. A loop that has not ended after `rounds` rounds has been through all of the address space.

- `Looked`: what a function did that stores nothing;
- `CString`: a string in memory; `text`: the characters that a bounded comparison sees;
- `strlen_returns`, `strncmp_returns`, `strchr_returns`: what each function returns, and what it reads.
-/

namespace Raampjes.Libc

open Progs

/-- Memory by bytes, the static variable of `strtok`, and the addresses that were read. -/
structure Bytes where
  mem : Nat → UInt8
  tokNext : Nat
  reads : List Nat

/-- Why a program ends before it returns. -/
inductive Stop
  /-- A loop that never ends. -/
  | endless
  | exited (status : Int)
  /-- The processor's fault on a division. -/
  | divides
  | panic
  deriving DecidableEq, Repr

abbrev OnBytes (α : Type) := Prog Bytes Stop α

/-- `*p`. -/
def load (p : Nat) : OnBytes UInt8 := fun s =>
  .ok (s.mem (p % 2 ^ 32), { s with reads := p % 2 ^ 32 :: s.reads })

/-- `*p = b`. -/
def store (p : Nat) (b : UInt8) : OnBytes Unit :=
  update fun s => { s with mem := Function.update s.mem (p % 2 ^ 32) b }

/-- A `char` of the source as an `int`. -/
def char (c : UInt8) : Int := c.toInt8.toInt

/-! ## The functions -/

def strlen (str : Nat) : OnBytes Nat :=
  forever .endless (fun len => do
    let c ← load (str + len)
    if c = 0 then pure (.inr len) else pure (.inl (len + 1))) rounds 0

/-- The loop of `strncmp`, with so many characters left from `i` on. -/
def strncmpFrom (s1 s2 : Nat) : Nat → Nat → OnBytes Int
  | 0, _ => pure 0
  | left + 1, i => do
    let c1 ← load (s1 + i)
    let c2 ← load (s2 + i)
    if c1 < c2 then pure (-1)
    else if c1 > c2 then pure 1
    else if c1 = 0 then pure 0
    else strncmpFrom s1 s2 left (i + 1)

def strncmp (s1 s2 n : Nat) : OnBytes Int := strncmpFrom s1 s2 n 0

/-- The loop of `strchr`: the result is behind the character that was found, and `uc` is compared with a `char`. -/
def strchrFrom (uc : UInt8) : Nat → Nat → OnBytes Nat
  | 0, _ => pure NULL
  | len + 1, s => do
    let c ← load s
    if (uc.toNat : Int) = char c then pure ((s + 1) % 2 ^ 32) else strchrFrom uc len (s + 1)

def strchr (s : Nat) (uc : UInt8) : OnBytes Nat := do
  let len ← strlen s
  strchrFrom uc (len + 1) s

def memcpy (dest src len : Nat) : OnBytes Unit :=
  loop (fun i => do
    let c ← load (src + i)
    store (dest + i) c) len

/-- The value of an `int` computation; overflow wraps around. -/
def int (n : Int) : Int := n.bmod (2 ^ 32)

/-- The loop of `atoi`, with so many characters left from `i` on; `none` is the `return 0` in the loop. -/
def atoiFrom (str : Nat) : Nat → Nat → Int → OnBytes (Option Int)
  | 0, _, ret => pure (some ret)
  | left + 1, i, ret => do
    let c ← load (str + i)
    if 48 ≤ char c ∧ char c ≤ 57 then atoiFrom str left (i + 1) (int (ret * 10 + (char c - 48))) else pure none

def atoi (str : Nat) : OnBytes Int := do
  let len ← strlen str
  let c ← load str
  let start := if char c = 45 then 1 else 0
  let ret ← atoiFrom str (len - start) start 0
  match ret with
  | none => pure 0
  | some ret => pure (if char c = 45 then int (ret * -1) else ret)

/-! ## What is read -/

/-- Nothing but the addresses read has changed, and these lie in `P`. -/
structure Looked (P : Nat → Prop) (s t : Bytes) : Prop where
  mem : t.mem = s.mem
  tokNext : t.tokNext = s.tokNext
  reads : ∀ p ∈ t.reads, p ∈ s.reads ∨ P p

section Looks

variable {P Q : Nat → Prop} {s t u : Bytes}

theorem Looked.refl (P : Nat → Prop) (s : Bytes) : Looked P s s := ⟨rfl, rfl, fun _ hp => Or.inl hp⟩

theorem Looked.trans (h : Looked P s t) (h' : Looked P t u) : Looked P s u := by
  refine ⟨h'.mem.trans h.mem, h'.tokNext.trans h.tokNext, fun p hp => ?_⟩
  rcases h'.reads p hp with hp | hp
  · exact h.reads p hp
  · exact Or.inr hp

theorem Looked.mono (h : Looked P s t) (hPQ : ∀ p, P p → Q p) : Looked Q s t :=
  ⟨h.mem, h.tokNext, fun p hp => (h.reads p hp).imp_right (hPQ p)⟩

theorem load_returns (s : Bytes) {p : Nat} (hp : P (p % 2 ^ 32)) :
    ∃ t, Returns (load p) s (s.mem (p % 2 ^ 32)) t ∧ Looked P s t := by
  refine ⟨_, rfl, rfl, rfl, fun q hq => ?_⟩
  rcases List.mem_cons.mp hq with rfl | hq
  · exact Or.inr hp
  · exact Or.inl hq

end Looks

/-! ## Strings -/

/-- The string `bs` and its terminator lie at `p`. -/
structure CString (mem : Nat → UInt8) (p : Nat) (bs : List UInt8) : Prop where
  held : ∀ (i : Nat) (h : i < bs.length), mem (p + i) = bs[i]
  ends : mem (p + bs.length) = 0
  nonzero : (0 : UInt8) ∉ bs
  fits : p + bs.length < 2 ^ 32

/-- The characters before the first zero byte among the next `n`. -/
def text (mem : Nat → UInt8) : Nat → Nat → List UInt8
  | _, 0 => []
  | p, n + 1 => if mem (p % 2 ^ 32) = 0 then [] else mem (p % 2 ^ 32) :: text mem (p + 1) n

section Strings

variable {mem : Nat → UInt8} {p : Nat} {bs : List UInt8}

theorem text_zero {n : Nat} (h : mem (p % 2 ^ 32) = 0) : text mem p (n + 1) = [] := by
  rw [text, if_pos h]

theorem text_succ {n : Nat} (h : mem (p % 2 ^ 32) ≠ 0) :
    text mem p (n + 1) = mem (p % 2 ^ 32) :: text mem (p + 1) n := by
  rw [text, if_neg h]

/-- Where the first characters differ, the texts differ. -/
theorem text_ne {q n : Nat} (h : mem (p % 2 ^ 32) ≠ mem (q % 2 ^ 32)) :
    text mem p (n + 1) ≠ text mem q (n + 1) := by
  by_cases hp : mem (p % 2 ^ 32) = 0
  · rw [text_zero hp, text_succ fun hq => h (hp.trans hq.symm)]
    exact (List.cons_ne_nil _ _).symm
  · rw [text_succ hp, text]
    split
    · exact List.cons_ne_nil _ _
    · exact fun heq => h (List.cons.inj heq).1

theorem CString.tail {b : UInt8} (h : CString mem p (b :: bs)) : CString mem (p + 1) bs := by
  refine ⟨fun i hi => ?_, ?_, fun hz => h.nonzero (List.mem_cons_of_mem b hz), ?_⟩
  · have := h.held (i + 1) (Nat.succ_lt_succ hi)
    rwa [Nat.add_assoc, Nat.add_comm 1 i]
  · have := h.ends
    rwa [List.length_cons, Nat.add_comm bs.length 1, ← Nat.add_assoc] at this
  · have := h.fits
    rw [List.length_cons] at this
    omega

theorem CString.head {b : UInt8} (h : CString mem p (b :: bs)) : mem (p % 2 ^ 32) = b ∧ b ≠ 0 := by
  have hlt : p < 2 ^ 32 := Nat.lt_of_le_of_lt (Nat.le_add_right p _) h.fits
  refine ⟨?_, fun hz => h.nonzero (hz ▸ List.mem_cons_self)⟩
  rw [Nat.mod_eq_of_lt hlt]
  exact h.held 0 (Nat.succ_pos _)

theorem CString.nil (h : CString mem p []) : mem (p % 2 ^ 32) = 0 := by
  have hlt : p < 2 ^ 32 := h.fits
  rw [Nat.mod_eq_of_lt hlt]
  exact h.ends

/-- A bounded comparison sees the start of a string. -/
theorem CString.text_eq (h : CString mem p bs) (n : Nat) : text mem p n = bs.take n := by
  induction bs generalizing p n with
  | nil =>
    cases n with
    | zero => rfl
    | succ n => rw [text_zero h.nil, List.take_nil]
  | cons b bs ih =>
    obtain ⟨hb, hne⟩ := h.head
    cases n with
    | zero => rfl
    | succ n => rw [text_succ (hb ▸ hne), hb, ih h.tail, List.take_succ_cons]

/-! ## What the functions return -/

theorem CString.byte (h : CString mem p bs) {i : Nat} (hi : i < bs.length) :
    mem ((p + i) % 2 ^ 32) = bs[i] ∧ bs[i] ≠ 0 := by
  have hfits := h.fits
  rw [Nat.mod_eq_of_lt (by omega), h.held i hi]
  exact ⟨rfl, fun hz => h.nonzero (hz ▸ List.getElem_mem hi)⟩

theorem strlen_returns {s : Bytes} (h : CString s.mem p bs) :
    ∃ t, Returns (strlen p) s bs.length t ∧ Looked (fun q => p ≤ q ∧ q ≤ p + bs.length) s t := by
  have hfits := h.fits
  refine forever_chain (I := fun _ t => Looked (fun q => p ≤ q ∧ q ≤ p + bs.length) s t) (f := fun i => i) ?_ ?_
    (show bs.length < rounds by rw [rounds]; omega) (Looked.refl _ s)
  · intro i t hi ht
    obtain ⟨u, hu, hlook⟩ := load_returns (P := fun q => p ≤ q ∧ q ≤ p + bs.length) t (p := p + i)
      (by rw [Nat.mod_eq_of_lt (by omega)]; omega)
    obtain ⟨hb, hne⟩ := h.byte hi
    refine ⟨u, ?_, ht.trans hlook⟩
    rw [Returns.bind_iff hu, ht.mem, if_neg (hb ▸ hne)]
    exact pure_ok.mpr ⟨rfl, rfl⟩
  · intro t ht
    obtain ⟨u, hu, hlook⟩ := load_returns (P := fun q => p ≤ q ∧ q ≤ p + bs.length) t (p := p + bs.length)
      (by rw [Nat.mod_eq_of_lt hfits]; omega)
    refine ⟨u, ?_, ht.trans hlook⟩
    rw [Returns.bind_iff hu, ht.mem, Nat.mod_eq_of_lt hfits, if_pos h.ends]
    exact pure_ok.mpr ⟨rfl, rfl⟩

/-- Where a comparison of up to `n` characters may look, from the first character that is left. -/
def Compared (mem : Nat → UInt8) (s1 s2 n : Nat) (p : Nat) : Prop :=
  ∃ j < n, j ≤ (text mem s1 n).length ∧ (p = (s1 + j) % 2 ^ 32 ∨ p = (s2 + j) % 2 ^ 32)

theorem Compared.succ {s1 s2 n : Nat} (hne : mem (s1 % 2 ^ 32) ≠ 0) (h : Compared mem (s1 + 1) (s2 + 1) n p) :
    Compared mem s1 s2 (n + 1) p := by
  obtain ⟨j, hj, hle, hp⟩ := h
  refine ⟨j + 1, Nat.succ_lt_succ hj, ?_, ?_⟩
  · rw [text_succ hne, List.length_cons]
    exact Nat.succ_le_succ hle
  · rwa [Nat.add_assoc, Nat.add_comm 1 j, Nat.add_assoc, Nat.add_comm 1 j] at hp

theorem strncmpFrom_returns (s1 s2 n i : Nat) (s : Bytes) :
    ∃ r t, Returns (strncmpFrom s1 s2 n i) s r t ∧
      (r = 0 ↔ text s.mem (s1 + i) n = text s.mem (s2 + i) n) ∧ Looked (Compared s.mem (s1 + i) (s2 + i) n) s t := by
  induction n generalizing i s with
  | zero => exact ⟨0, s, pure_ok.mpr ⟨rfl, rfl⟩, by simp [text], Looked.refl _ s⟩
  | succ n ih =>
    have hfirst : ∀ p, p = (s1 + i) % 2 ^ 32 ∨ p = (s2 + i) % 2 ^ 32 →
        Compared s.mem (s1 + i) (s2 + i) (n + 1) p := fun p hp => ⟨0, Nat.succ_pos n, Nat.zero_le _, hp⟩
    obtain ⟨t, ht, hlt⟩ := load_returns (P := Compared s.mem (s1 + i) (s2 + i) (n + 1)) s (p := s1 + i)
      (hfirst _ (Or.inl rfl))
    obtain ⟨u, hu, hlu⟩ := load_returns (P := Compared s.mem (s1 + i) (s2 + i) (n + 1)) t (p := s2 + i)
      (hfirst _ (Or.inr rfl))
    have hsu := hlt.trans hlu
    rw [hlt.mem] at hu
    -- the comparison of the two characters
    have hstep : ∀ r v, Returns (strncmpFrom s1 s2 (n + 1) i) s r v ↔
        Returns (if s.mem ((s1 + i) % 2 ^ 32) < s.mem ((s2 + i) % 2 ^ 32) then pure (-1)
          else if s.mem ((s1 + i) % 2 ^ 32) > s.mem ((s2 + i) % 2 ^ 32) then pure 1
          else if s.mem ((s1 + i) % 2 ^ 32) = 0 then pure 0
          else strncmpFrom s1 s2 n (i + 1)) u r v := by
      intro r v
      rw [strncmpFrom, Returns.bind_iff ht, Returns.bind_iff hu]
    by_cases hlt' : s.mem ((s1 + i) % 2 ^ 32) < s.mem ((s2 + i) % 2 ^ 32)
    · refine ⟨-1, u, (hstep _ _).mpr (by rw [if_pos hlt']; exact pure_ok.mpr ⟨rfl, rfl⟩), ?_, hsu⟩
      exact iff_of_false (by decide) (text_ne (UInt8.ne_of_lt hlt'))
    by_cases hgt : s.mem ((s1 + i) % 2 ^ 32) > s.mem ((s2 + i) % 2 ^ 32)
    · refine ⟨1, u, (hstep _ _).mpr (by rw [if_neg hlt', if_pos hgt]; exact pure_ok.mpr ⟨rfl, rfl⟩), ?_, hsu⟩
      exact iff_of_false (by decide) (text_ne (UInt8.ne_of_lt hgt).symm)
    have heq : s.mem ((s1 + i) % 2 ^ 32) = s.mem ((s2 + i) % 2 ^ 32) :=
      UInt8.le_antisymm (UInt8.not_lt.mp hgt) (UInt8.not_lt.mp hlt')
    by_cases hz : s.mem ((s1 + i) % 2 ^ 32) = 0
    · refine ⟨0, u, (hstep _ _).mpr ?_, ?_, hsu⟩
      · rw [if_neg hlt', if_neg hgt, if_pos hz]
        exact pure_ok.mpr ⟨rfl, rfl⟩
      · rw [text_zero hz, text_zero (heq ▸ hz)]
        simp
    · obtain ⟨r, v, hv, hr, hlook⟩ := ih (i + 1) u
      rw [hsu.mem] at hr hlook
      refine ⟨r, v, (hstep _ _).mpr ?_, ?_, hsu.trans (hlook.mono fun p hp => hp.succ hz)⟩
      · rw [if_neg hlt', if_neg hgt, if_neg hz]
        exact hv
      · rw [hr, text_succ hz, text_succ (heq ▸ hz), heq, List.cons.injEq]
        exact (and_iff_right rfl).symm

/-- `strncmp` compares what stands before the first zero byte, in at most `n` characters. -/
theorem strncmp_returns (s1 s2 n : Nat) (s : Bytes) :
    ∃ r t, Returns (strncmp s1 s2 n) s r t ∧ (r = 0 ↔ text s.mem s1 n = text s.mem s2 n) ∧
      Looked (Compared s.mem s1 s2 n) s t :=
  strncmpFrom_returns s1 s2 n 0 s

theorem char_eq (c : UInt8) : char c = if c.toNat < 128 then (c.toNat : Int) else c.toNat - 256 := by
  have h : char c = c.toBitVec.toInt := rfl
  have hn : c.toBitVec.toNat = c.toNat := rfl
  rw [h, BitVec.toInt_eq_toNat_cond, hn]
  have := c.toNat_lt
  split <;> split <;> omega

/-- A byte and a `char` have the same value when they are the same and below 128. -/
theorem char_eq_iff (uc c : UInt8) : (uc.toNat : Int) = char c ↔ uc = c ∧ uc.toNat < 128 := by
  have := c.toNat_lt
  rw [char_eq, ← UInt8.toNat_inj]
  split <;> omega

theorem strchrFrom_returns {uc : UInt8} (huc : uc ≠ 0) {s : Bytes} (h : CString s.mem p bs) :
    ∃ r t, Returns (strchrFrom uc (bs.length + 1) p) s r t ∧ (r ≠ 0 ↔ uc ∈ bs ∧ uc.toNat < 128) ∧
      Looked (fun q => p ≤ q ∧ q ≤ p + bs.length) s t := by
  have hfits := h.fits
  induction bs generalizing p s with
  | nil =>
    obtain ⟨t, ht, hlook⟩ := load_returns (P := fun q => p ≤ q ∧ q ≤ p + 0) s (p := p)
      (by rw [Nat.mod_eq_of_lt (show p < 2 ^ 32 from h.fits)]; omega)
    refine ⟨0, t, ?_, by simp, hlook⟩
    rw [List.length_nil, strchrFrom, Returns.bind_iff ht, h.nil, if_neg, strchrFrom]
    · exact pure_ok.mpr ⟨rfl, rfl⟩
    · exact fun heq => huc ((char_eq_iff uc 0).mp heq).1
  | cons b bs ih =>
    obtain ⟨hb, hne⟩ := h.head
    rw [List.length_cons] at hfits
    obtain ⟨t, ht, hlook⟩ := load_returns (P := fun q => p ≤ q ∧ q ≤ p + (b :: bs).length) s (p := p)
      (by rw [Nat.mod_eq_of_lt (by omega)]; exact ⟨Nat.le_refl p, Nat.le_add_right p _⟩)
    by_cases hc : (uc.toNat : Int) = char b
    · obtain ⟨rfl, hlt⟩ := (char_eq_iff uc b).mp hc
      refine ⟨(p + 1) % 2 ^ 32, t, ?_, ?_, hlook⟩
      · rw [strchrFrom, Returns.bind_iff ht, hb, if_pos hc]
        exact pure_ok.mpr ⟨rfl, rfl⟩
      · rw [Nat.mod_eq_of_lt (by omega)]
        exact iff_of_true (Nat.succ_ne_zero p) ⟨List.mem_cons_self, hlt⟩
    · have htail : CString t.mem (p + 1) bs := hlook.mem ▸ h.tail
      obtain ⟨r, u, hr, hiff, hlook'⟩ := ih htail htail.fits
      refine ⟨r, u, ?_, ?_, hlook.trans (hlook'.mono fun q hq => ?_)⟩
      · rw [List.length_cons, strchrFrom, Returns.bind_iff ht, hb, if_neg hc]
        exact hr
      · rw [hiff, List.mem_cons]
        refine and_congr_left fun hlt => ⟨Or.inr, fun hmem => hmem.resolve_left fun heq => ?_⟩
        exact hc ((char_eq_iff uc b).mpr ⟨heq, hlt⟩)
      · rw [List.length_cons]
        omega

/-- `strchr` finds a character below 128 exactly when the string has it, and no other. -/
theorem strchr_returns {uc : UInt8} (huc : uc ≠ 0) {s : Bytes} (h : CString s.mem p bs) :
    ∃ r t, Returns (strchr p uc) s r t ∧ (r ≠ 0 ↔ uc ∈ bs ∧ uc.toNat < 128) ∧
      Looked (fun q => p ≤ q ∧ q ≤ p + bs.length) s t := by
  obtain ⟨t, ht, hlook⟩ := strlen_returns h
  have h' : CString t.mem p bs := hlook.mem ▸ h
  obtain ⟨r, u, hr, hiff, hlook'⟩ := strchrFrom_returns huc h'
  refine ⟨r, u, ?_, hiff, hlook.trans hlook'⟩
  rw [strchr, Returns.bind_iff ht]
  exact hr

end Strings

end Raampjes.Libc
