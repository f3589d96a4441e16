import Raampjes.Ramdisk.Contents

/-!
# `find_file` on tar archives

- `Archive`: members with their headers and padded contents, and a block of zeros behind them;
- `Member.At.following`: the size field of a member leads to the next header, also for empty members, where the sum
  wraps around twice;
- `forever_archive`: the search from any place in an archive, for any name: a name that is too long counts with its
  first 100 characters, and the empty name is found at the end marker;
- `find_file_archive`: for the names that a member can have, the first member with the name is returned, and nothing
  behind the end marker is read.
-/

namespace Raampjes.Ramdisk

open Progs Libc

/-- A member of an archive. -/
structure Member where
  name : List UInt8
  content : List UInt8
  named : name ≠ []
  short : name.length ≤ 100
  plain : (0 : UInt8) ∉ name

/-- A header, and the content in whole blocks. -/
def Member.span (m : Member) : Nat := 512 * (1 + (m.content.length + 511) / 512)

/-- The member lies at `a`, with its size in 11 octal digits. A name of 100 characters has no terminator. -/
structure Member.At (mem : Nat → UInt8) (a : Nat) (m : Member) : Prop where
  name : ∀ (i : Nat) (h : i < m.name.length), mem (a + i) = m.name[i]
  nameEnds : m.name.length < 100 → mem (a + m.name.length) = 0
  size : ∀ i < 11, mem (a + sizeOffset + i) = UInt8.ofNat (48 + m.content.length / 8 ^ (10 - i) % 8)
  content : ∀ (i : Nat) (h : i < m.content.length), mem (a + 512 + i) = m.content[i]

/-- The members lie one after the other from `a` on, with a block of zeros behind the last, all below `2 ^ 32`. -/
inductive Archive (mem : Nat → UInt8) : Nat → List Member → Prop
  | nil {a : Nat} : (∀ i < 512, mem (a + i) = 0) → a + 512 ≤ 2 ^ 32 → Archive mem a []
  | cons {a : Nat} {m : Member} {ms : List Member} : m.At mem a → Archive mem (a + m.span) ms → Archive mem a (m :: ms)

/-- Where the block of zeros ends. -/
def archiveEnd (a : Nat) (ms : List Member) : Nat := a + (ms.map Member.span).sum + 512

/-- The header of the first member with the name. -/
def memberAt (a : Nat) : List Member → List UInt8 → Option Nat
  | [], _ => none
  | m :: ms, name => if m.name = name then some a else memberAt (a + m.span) ms name

section Bytes

variable {mem : Nat → UInt8} {a : Nat} {m : Member} {ms : List Member}

theorem archiveEnd_cons (a : Nat) (m : Member) (ms : List Member) :
    archiveEnd a (m :: ms) = archiveEnd (a + m.span) ms := by
  rw [archiveEnd, archiveEnd, List.map_cons, List.sum_cons]
  omega

theorem Archive.fits (h : Archive mem a ms) : archiveEnd a ms ≤ 2 ^ 32 := by
  induction h with
  | nil _ hle => exact hle
  | cons _ _ ih => exact Nat.le_trans (Nat.le_of_eq (archiveEnd_cons _ _ _)) ih

theorem archiveEnd_ge (a : Nat) (ms : List Member) : a + 512 ≤ archiveEnd a ms := by
  rw [archiveEnd]
  omega

/-- A text that ends by itself or at the bound. -/
theorem text_of_held {p n : Nat} {bs : List UInt8} (h : ∀ (i : Nat) (hi : i < bs.length), mem ((p + i) % 2 ^ 32) = bs[i])
    (h0 : (0 : UInt8) ∉ bs) (hle : bs.length ≤ n) (hend : bs.length < n → mem ((p + bs.length) % 2 ^ 32) = 0) :
    text mem p n = bs := by
  induction bs generalizing p n with
  | nil =>
    cases n with
    | zero => rfl
    | succ n => exact text_zero (hend (Nat.succ_pos n))
  | cons b bs ih =>
    obtain ⟨n, rfl⟩ := Nat.exists_eq_succ_of_ne_zero (Nat.ne_zero_of_lt hle)
    have hb : mem (p % 2 ^ 32) = b := h 0 (Nat.succ_pos _)
    have hne : b ≠ 0 := fun hz => h0 (hz ▸ List.mem_cons_self)
    have hrest : text mem (p + 1) n = bs := by
      refine ih (fun i hi => ?_) (fun hz => h0 (List.mem_cons_of_mem b hz)) (Nat.le_of_succ_le_succ hle) fun hlt => ?_
      · have heq : p + 1 + i = p + (i + 1) := by omega
        rw [heq]
        exact h (i + 1) (Nat.succ_lt_succ hi)
      · have heq : p + 1 + bs.length = p + (b :: bs).length := by rw [List.length_cons]; omega
        rw [heq]
        exact hend (Nat.succ_lt_succ hlt)
    rw [text_succ (hb ▸ hne), hb, hrest]

theorem Member.At.text_eq (h : m.At mem a) (ha : a + 512 ≤ 2 ^ 32) : text mem a 100 = m.name := by
  have hshort := m.short
  refine text_of_held (fun i hi => ?_) m.plain hshort fun hlt => ?_
  · rw [Nat.mod_eq_of_lt (by omega)]
    exact h.name i hi
  · rw [Nat.mod_eq_of_lt (by omega)]
    exact h.nameEnds hlt

theorem Member.At.named (h : m.At mem a) (ha : a + 512 ≤ 2 ^ 32) : ¬ Unnamed mem a := by
  have h0 : 0 < m.name.length := List.length_pos_of_ne_nil m.named
  have hfirst := h.name 0 h0
  rw [Nat.add_zero] at hfirst
  rw [Unnamed, Nat.mod_eq_of_lt (by omega), hfirst]
  exact fun hz => m.plain (hz ▸ List.getElem_mem h0)

/-! ## Sizes -/

theorem digit_octal {d : Nat} (hd : d < 8) : digit (UInt8.ofNat (48 + d)) = d := by
  have hall : ∀ d < 8, digit (UInt8.ofNat (48 + d)) = d := by decide
  exact hall d hd

/-- The digits of a number up to one place are the number without the places behind it. -/
theorem octal_digits {p n : Nat} (hn : n < 2 ^ 32)
    (h : ∀ i < 11, mem ((p + i) % 2 ^ 32) = UInt8.ofNat (48 + n / 8 ^ (10 - i) % 8)) {j : Nat} (hj : j ≤ 11) :
    octal (field mem p j) = n / 8 ^ (11 - j) := by
  induction j with
  | zero => exact (Nat.div_eq_of_lt (Nat.lt_trans hn (by decide))).symm
  | succ j ih =>
    have hpow : 8 ^ (11 - j) = 8 ^ (10 - j) * 8 := by
      rw [← Nat.pow_succ]
      congr 1
      omega
    have hsub : 11 - (j + 1) = 10 - j := by omega
    rw [field_succ, octal_snoc, ih (Nat.le_of_succ_le hj), h j hj, digit_octal (Nat.mod_lt _ (by decide)), hsub, hpow,
      ← Nat.div_div_eq_div_mul, Nat.div_add_mod]
    exact Nat.mod_eq_of_lt (Nat.lt_of_le_of_lt (Nat.div_le_self _ _) hn)

/-- The distance to the next header, for every size: the sum wraps around for the size 0. -/
theorem advance_eq {size : Nat} (h : size < 2 ^ 32) : advance size = 512 * (1 + (size + 511) / 512) % 2 ^ 32 := by
  rw [advance]
  by_cases h0 : size = 0
  · -- `size - 1` is the largest number, and one more block than it has is past the last
    have h1 : (size + 2 ^ 32 - 1) % 2 ^ 32 = 2 ^ 32 - 1 := by omega
    rw [h1, h0]
    norm_num
  · have h1 : (size + 2 ^ 32 - 1) % 2 ^ 32 = size - 1 := by omega
    have h2 : (size - 1) / 512 + 2 = 1 + (size + 511) / 512 := by omega
    rw [h1, h2, Nat.mul_comm]

/-- **The size field of a member leads to the next header.** -/
theorem Member.At.following (h : m.At mem a) (hle : a + m.span + 512 ≤ 2 ^ 32) :
    following mem a = a + m.span := by
  have hlen : m.content.length < 2 ^ 32 := by
    rw [Member.span] at hle
    omega
  have hsize : sizeAt mem a = m.content.length := by
    rw [sizeAt, octal_digits hlen (fun i hi => ?_) (Nat.le_refl 11), Nat.sub_self, Nat.pow_zero, Nat.div_one]
    rw [Nat.mod_eq_of_lt (by rw [sizeOffset]; omega)]
    exact h.size i hi
  rw [Ramdisk.following, hsize, advance_eq hlen, ← Member.span, Nat.mod_eq_of_lt (a := m.span) (by omega)]
  exact Nat.mod_eq_of_lt (by omega)

end Bytes

/-! ## The search -/

/-- In the archive up to the end of its block of zeros, or in the name. -/
def InArchive (a : Nat) (ms : List Member) (name : Nat) (bs : List UInt8) (p : Nat) : Prop :=
  (a ≤ p ∧ p < archiveEnd a ms) ∨ (name ≤ p ∧ p ≤ name + bs.length)

section Search

variable {a name : Nat} {ms : List Member} {bs : List UInt8}

theorem Visible.inArchive {mem : Nat → UInt8} (hname : CString mem name bs) (ha : a + 512 ≤ 2 ^ 32) (ms : List Member)
    {p : Nat} (h : Visible mem name a p) : InArchive a ms name bs p := by
  rcases h with ⟨j, -, hle, rfl⟩ | ⟨j, hj, rfl⟩
  · rw [hname.text_eq, List.length_take] at hle
    have := hname.fits
    rw [Nat.mod_eq_of_lt (by omega)]
    exact Or.inr (by omega)
  · rw [sizeofTarHeader] at hj
    have := archiveEnd_ge a ms
    rw [Nat.mod_eq_of_lt (by omega)]
    exact Or.inl (by omega)

/-- What a search returns that has come to `a`. -/
def found (a : Nat) (ms : List Member) (bs : List UInt8) : Nat :=
  (memberAt a ms (bs.take 100)).getD (if bs = [] then archiveEnd a ms - 512 else NULL)

theorem found_cons {m : Member} (h : m.name ≠ bs.take 100) : found a (m :: ms) bs = found (a + m.span) ms bs := by
  rw [found, memberAt, if_neg h, archiveEnd_cons, found]

theorem take_eq_nil (bs : List UInt8) : bs.take 100 = [] ↔ bs = [] := by
  rw [List.take_eq_nil_iff, or_iff_right (by decide)]

/-- **The search from any place in an archive.** -/
theorem forever_archive {s : Bytes} (hA : Archive s.mem a ms) (hname : CString s.mem name bs) {n : Nat}
    (hn : ms.length < n) :
    ∃ t, Returns (forever .endless (findRound name) n a) s (found a ms bs) t ∧ Looked (InArchive a ms name bs) s t := by
  obtain ⟨n, rfl⟩ := Nat.exists_eq_succ_of_ne_zero (Nat.ne_zero_of_lt hn)
  induction ms generalizing a n s with
  | nil =>
    obtain ⟨hzero, hle⟩ : (∀ i < 512, s.mem (a + i) = 0) ∧ a + 512 ≤ 2 ^ 32 := by
      cases hA with
      | nil hzero hle => exact ⟨hzero, hle⟩
    obtain ⟨t, ht, hlook⟩ := findRound_returns name a s
    have hz : s.mem (a % 2 ^ 32) = 0 := by
      rw [Nat.mod_eq_of_lt (by omega)]
      exact hzero 0 (by decide)
    have hmatch : Matches s.mem name a ↔ bs = [] := by
      rw [Matches, hname.text_eq, text_zero hz, take_eq_nil]
    have hfound : found a [] bs = if bs = [] then a else NULL := by
      rw [found, memberAt, Option.getD_none, archiveEnd]
      simp
    refine ⟨t, forever_succ.mpr (Or.inl ?_), hlook.mono fun p hp => hp.inArchive hname hle []⟩
    rw [hfound]
    by_cases hbs : bs = []
    · rw [if_pos (hmatch.mpr hbs)] at ht
      rwa [if_pos hbs]
    · rw [if_neg (fun h => hbs (hmatch.mp h)), if_pos (show Unnamed s.mem a from hz)] at ht
      rwa [if_neg hbs]
  | cons m ms ih =>
    have hfits := hA.fits
    obtain ⟨hm, hrest⟩ : m.At s.mem a ∧ Archive s.mem (a + m.span) ms := by
      cases hA with
      | cons hm hrest => exact ⟨hm, hrest⟩
    have hnext := archiveEnd_ge (a + m.span) ms
    rw [archiveEnd_cons] at hfits
    have ha : a + 512 ≤ 2 ^ 32 := by omega
    obtain ⟨t, ht, hlook⟩ := findRound_returns name a s
    have hlook := hlook.mono fun p hp => hp.inArchive hname ha (m :: ms)
    have hmatch : Matches s.mem name a ↔ bs.take 100 = m.name := by
      rw [Matches, hname.text_eq, hm.text_eq ha]
    by_cases hsame : m.name = bs.take 100
    · refine ⟨t, forever_succ.mpr (Or.inl ?_), hlook⟩
      rw [if_pos (hmatch.mpr hsame.symm)] at ht
      rwa [found, memberAt, if_pos hsame, Option.getD_some]
    · -- on to the next header, which is found by the size of this member
      rw [if_neg (fun h => hsame (hmatch.mp h).symm), if_neg (hm.named ha), hm.following (by omega)] at ht
      obtain ⟨k, rfl⟩ := Nat.exists_eq_succ_of_ne_zero (show n ≠ 0 by
        rw [List.length_cons] at hn
        omega)
      obtain ⟨u, hu, hlook'⟩ := ih (hlook.mem ▸ hrest) (hlook.mem ▸ hname) k (Nat.lt_of_succ_lt_succ hn)
      refine ⟨u, forever_succ.mpr (Or.inr ⟨_, t, ht, ?_⟩), hlook.trans (hlook'.mono fun p hp => ?_)⟩
      · rw [found_cons hsame]
        exact hu
      · rw [InArchive, archiveEnd_cons]
        exact hp.imp_left fun h => ⟨by omega, h.2⟩

end Search

/-- The search has rounds enough for every archive. -/
theorem Archive.length_lt {mem : Nat → UInt8} {a : Nat} {ms : List Member} (hA : Archive mem a ms) :
    ms.length < rounds := by
  have hfits := hA.fits
  have hsum : (ms.map Member.span).length ≤ (ms.map Member.span).sum := by
    refine List.length_le_sum_of_one_le _ fun n hn => ?_
    obtain ⟨m, -, rfl⟩ := List.mem_map.mp hn
    rw [Member.span]
    omega
  rw [List.length_map] at hsum
  rw [archiveEnd] at hfits
  rw [rounds]
  omega

/-- **The lookup.** For a name that a member can have, `find_file` returns the header of the first member with the name,
or `NULL`, and reads nothing behind the block of zeros. -/
theorem find_file_archive {rd : Rd} {s : Bytes} {ms : List Member} (hA : Archive s.mem rd.firstHeader ms) {name : Nat}
    {bs : List UInt8} (hname : CString s.mem name bs) (hne : bs ≠ []) (hshort : bs.length ≤ 100) :
    ∃ t, Returns (findFile rd name) s ((memberAt rd.firstHeader ms bs).getD NULL) t ∧
      Looked (InArchive rd.firstHeader ms name bs) s t := by
  obtain ⟨t, ht, hlook⟩ := forever_archive hA hname hA.length_lt
  rw [found, List.take_of_length_le hshort, if_neg hne] at ht
  exact ⟨t, ht, hlook⟩

/-- The empty member `a` and the member `b` of one byte, at `0xC0100000`, and the strings `b` and `c` elsewhere. -/
def twoMembers (p : Nat) : UInt8 :=
  if p = 0x1000 ∨ p = 0xC0100200 then 98
  else if p = 0x2000 then 99
  else if p = 0xC0100000 then 97
  else if p = 0xC0100286 then 49
  else if 0xC010007C ≤ p ∧ p < 0xC0100087 ∨ 0xC010027C ≤ p ∧ p < 0xC0100287 then 48
  else if p = 0xC0100400 then 7 else 0

def emptyMember : Member := ⟨[97], [], by decide, by decide, by decide⟩

def byteMember : Member := ⟨[98], [7], by decide, by decide, by decide⟩

def twoRd : Rd := ⟨0xC0100000, 0x800, oneBlock.firstHeader_lt⟩

def twoState : Bytes := ⟨twoMembers, 0, []⟩

theorem archive_two : Archive twoState.mem twoRd.firstHeader [emptyMember, byteMember] := by
  refine .cons ⟨?_, ?_, ?_, ?_⟩ (.cons ⟨?_, ?_, ?_, ?_⟩ (.nil (fun i hi => ?_) (by decide)))
  · decide
  · decide
  · decide
  · decide
  · decide
  · decide
  · decide
  · decide
  · have hspans : twoRd.firstHeader + emptyMember.span + byteMember.span = 0xC0100600 := by decide
    rw [hspans]
    show twoMembers (0xC0100600 + i) = 0
    rw [twoMembers, if_neg (by omega), if_neg (by omega), if_neg (by omega), if_neg (by omega), if_neg (by omega),
      if_neg (by omega)]

theorem find_file_archive_two : ∃ t, Returns (findFile twoRd 0x1000) twoState 0xC0100200 t ∧
    Looked (InArchive 0xC0100000 [emptyMember, byteMember] 0x1000 [98]) twoState t := by
  have hname : CString twoState.mem 0x1000 [98] := ⟨by decide, by decide, by decide, by decide⟩
  exact find_file_archive archive_two hname (by decide) (by decide)

end Raampjes.Ramdisk
