import Raampjes.Mm.Teardown

/-!
# Frames with two uses

The counters, the flags, a free slot and free frames do not make the sweep right by themselves. In `overlap` the running
task names one page table twice, without a flag, and the other task has that page table as a page of its own:

- `Family`: the conditions without those of the layout;
- `freeMemUsr_overlap`: in `overlap` one reference is never given back, and the page of the other task changes.
-/

namespace Raampjes.Mm

open Progs Refs

/-- The counters cover the references, page tables of several directories are flagged in each, the kernel's page table has
a free slot, and there are frames for the copies. -/
structure Family (m : Machine) : Prop where
  env : Env m
  counted : Counted m
  flagged : ∀ p q D E d e, IsDirectory m p D → IsDirectory m q E → D ≠ E → d < 768 → e < 768 →
    present (m.ram D d) = true → present (m.ram E e) = true → frameOf (m.ram D d) = frameOf (m.ram E e) →
    shared (m.ram D d) = true ∧ shared (m.ram E e) = true
  slot : present (m.ram m.cr3 769) = true ∧ ∃ k, k < 1024 ∧ present (m.ram (frameOf (m.ram m.cr3 769)) k) = false
  supplied : Supplied m

/-- A page directory `D` of two tables of the kernel, with the page table `t` under the entries `d` and `e`. -/
def directoryWord (D t d e i : Nat) : Word :=
  if i = d ∨ i = e then mkEntry t 7#32
  else if i = 768 then mkEntry 2 3#32
  else if i = 769 then mkEntry 2002 3#32
  else if i = 1023 then mkEntry D 3#32
  else 0#32

/-- The first task has the page table 2004 under the entries 1 and 2, with the page 2006; the second task has the frame
2004 as a page, by its own page table 2005. -/
def overlap : Machine where
  ram f i :=
    if f = 1 then directoryWord 1 2004 1 2 i
    else if f = 2 then mkEntry i 3#32
    else if f = 2001 then directoryWord 2001 2005 1 1 i
    else if f = 2002 then if i = 0 then mkEntry 2003 3#32 else if i = 1 then mkEntry 2001 3#32 else 0#32
    else if f = 2004 then if i = 0 then mkEntry 2006 7#32 else 0#32
    else if f = 2005 then if i = 0 then mkEntry 2004 7#32 else 0#32
    else 0#32
  bitmap _ := 255
  cr3 := 1
  tasks p :=
    if p = 0 then some (initTask smallImage)
    else if p = 1 then some { noTask with pid := 1, addr := slotAddr 0, pageDirectory := slotAddr 1 }
    else none
  current := 0

theorem overlap_env : Env overlap := ⟨by decide, by decide, by decide, by decide⟩

/-! ## The conditions hold -/

section Conditions

variable {D t d e i f : Nat}

theorem directoryWord_user (hi : i < 768) : directoryWord D t d e i = if i = d ∨ i = e then mkEntry t 7#32 else 0#32 := by
  rw [directoryWord, if_neg (by omega : ¬ i = 768), if_neg (by omega : ¬ i = 769), if_neg (by omega : ¬ i = 1023)]

theorem directoryWord_present (ht : t < 2 ^ 20) (hi : i < 768) (hp : present (directoryWord D t d e i) = true) :
    (i = d ∨ i = e) ∧ frameOf (directoryWord D t d e i) = t ∧ shared (directoryWord D t d e i) = false := by
  rw [directoryWord_user hi] at hp ⊢
  by_cases hat : i = d ∨ i = e
  · rw [if_pos hat, frameOf_mkEntry ht (by decide), shared_mkEntry]
    exact ⟨hat, rfl, rfl⟩
  · rw [if_neg hat] at hp
    cases hp

/-- Two entries of one page table, with one page each, are four references at most. -/
theorem held_le_four {ram : Nat → Nat → Word}
    (hdir : ∀ i, i < 768 → present (ram D i) = true → (i = d ∨ i = e) ∧ frameOf (ram D i) = t)
    (htab : ∀ j, j < 1024 → present (ram t j) = true → j = 0) : held ram D f ≤ 4 := by
  have hpages : pagesOf ram D f ⊆ {d * 1024, e * 1024} := by
    intro n hn
    obtain ⟨hn, hw⟩ := Finset.mem_filter.mp hn
    obtain ⟨hp, hq, _⟩ := walk_eq_some.mp hw
    obtain ⟨hat, hf⟩ := hdir _ (dirIndex_user (pageNumber_user (Finset.mem_range.mp hn))) hp
    rw [hf] at hq
    have hzero := htab _ (pageTableIndex_lt _) hq
    rw [pageTableIndex, PAGE_SIZE] at hzero
    rw [dirIndex, PAGE_SIZE] at hat
    rw [Finset.mem_insert, Finset.mem_singleton]
    omega
  have htables : tablesOf ram D f ⊆ {d, e} := by
    intro i hi
    obtain ⟨hi, hp, _⟩ := Finset.mem_filter.mp hi
    rw [Finset.mem_insert, Finset.mem_singleton]
    exact (hdir i (Finset.mem_range.mp hi) hp).1
  have h1 := (Finset.card_le_card hpages).trans Finset.card_le_two
  have h2 := (Finset.card_le_card htables).trans Finset.card_le_two
  rw [held]
  omega

theorem overlap_directory {p D : Nat} (h : IsDirectory overlap p D) : (p = 0 ∧ D = 1) ∨ (p = 1 ∧ D = 2001) := by
  obtain ⟨t, ht, hw⟩ := h
  by_cases h0 : p = 0
  · subst h0
    obtain rfl := Option.some.inj ht
    exact Or.inl ⟨rfl, (Option.some.inj hw).symm⟩
  by_cases h1 : p = 1
  · subst h1
    obtain rfl := Option.some.inj ht
    exact Or.inr ⟨rfl, (Option.some.inj hw).symm⟩
  · rw [show overlap.tasks p = none by simp [overlap, h0, h1]] at ht
    cases ht

/-- Each of the two address spaces has four references to a frame at most. -/
theorem overlap_heldBy (p : Nat) : heldBy overlap p f ≤ if p < 2 then 4 else 0 := by
  by_cases h0 : p = 0
  · subst h0
    have hdir : directoryOf overlap 0 = some 1 := by decide
    rw [heldBy, hdir]
    refine held_le_four (t := 2004) (d := 1) (e := 2) (fun i hi hp => ?_) fun j _ hp => ?_
    · obtain ⟨hat, hf, _⟩ := directoryWord_present (D := 1) (t := 2004) (by decide) hi hp
      exact ⟨hat, hf⟩
    · by_contra hj
      rw [show overlap.ram 2004 j = 0#32 from if_neg hj] at hp
      cases hp
  by_cases h1 : p = 1
  · subst h1
    have hdir : directoryOf overlap 1 = some 2001 := by decide
    rw [heldBy, hdir]
    refine held_le_four (t := 2005) (d := 1) (e := 1) (fun i hi hp => ?_) fun j _ hp => ?_
    · obtain ⟨hat, hf, _⟩ := directoryWord_present (D := 2001) (t := 2005) (by decide) hi hp
      exact ⟨hat, hf⟩
    · by_contra hj
      rw [show overlap.ram 2005 j = 0#32 from if_neg hj] at hp
      cases hp
  · have hnone : overlap.tasks p = none := by simp [overlap, h0, h1]
    rw [heldBy_none hnone, if_neg (by omega)]

theorem overlap_counted : Counted overlap := by
  have hsum : ∀ f, total (Finset.range Sched.MAX_TASKS) (heldBy overlap) f ≤ 8 := fun f =>
    (Finset.sum_le_sum fun p _ => overlap_heldBy p).trans (by decide)
  have hcount : ∀ f, (overlap.bitmap f).toNat = 255 := fun _ => rfl
  refine ⟨fun f => ?_, fun f _ => ?_⟩
  · have := hsum f
    rw [hcount]
    omega
  · have := hsum f
    rw [hcount]
    omega

theorem overlap_family : Family overlap := by
  refine ⟨overlap_env, overlap_counted, ?_, ⟨by decide, 2, by decide, by decide⟩, ?_⟩
  · -- the page tables of the two directories differ
    intro p q D E d e hD hE hne hd he hp hq heq
    have hfirst : ∀ i, i < 768 → present (overlap.ram 1 i) = true → frameOf (overlap.ram 1 i) = 2004 := fun i hi hp =>
      (directoryWord_present (D := 1) (t := 2004) (by decide) hi hp).2.1
    have hsecond : ∀ i, i < 768 → present (overlap.ram 2001 i) = true → frameOf (overlap.ram 2001 i) = 2005 :=
      fun i hi hp => (directoryWord_present (D := 2001) (t := 2005) (by decide) hi hp).2.1
    rcases overlap_directory hD with ⟨_, rfl⟩ | ⟨_, rfl⟩ <;> rcases overlap_directory hE with ⟨_, rfl⟩ | ⟨_, rfl⟩
    · exact absurd rfl hne
    · rw [hfirst d hd hp, hsecond e he hq] at heq
      cases heq
    · rw [hsecond d hd hp, hfirst e he hq] at heq
      cases heq
    · exact absurd rfl hne
  · have hnone : sharedTables overlap = ∅ := by
      refine Finset.filter_eq_empty_iff.mpr fun i hi ⟨hp, hs, _⟩ => ?_
      have := (directoryWord_present (D := 1) (t := 2004) (by decide) (Finset.mem_range.mp hi) hp).2.2
      exact absurd (hs.symm.trans this) (by decide)
    rw [Supplied, hnone]
    exact Nat.zero_le _

end Conditions

/-! ## The sweep -/

/-- After the first page was freed: the page table has no page any more. -/
def overlapFreed : Machine := (overlap.drop 2006).setWord 2004 0 (absent (mkEntry 2006 7#32))

section Sweep

variable {i a : Nat}

theorem overlapFreed_ram {f : Nat} (h : f ≠ 2004) : overlapFreed.ram f = overlap.ram f := by
  funext j
  rw [overlapFreed, setWord_of_ne _ _ _ _ (Or.inl h), drop_ram]

theorem overlapFreed_env : Env overlapFreed := ⟨by decide, by decide, by decide, by decide⟩

theorem directoryWord_unshared {D t d e : Nat} (hi : i < 768) : shared (directoryWord D t d e i) = false := by
  rw [directoryWord_user hi]
  split_ifs
  · rw [shared_mkEntry]
    decide
  · decide

/-- Before the first page there is none, and after it none is left. -/
theorem overlap_absent (ha : a < 0x400000) : present (overlap.pde a) = false := by
  have hzero : dirIndex a = 0 := by
    rw [dirIndex]
    omega
  rw [Machine.pde, hzero]
  decide

theorem overlapFreed_absent (ha : a < KERNEL_MEMORY) :
    (present (overlapFreed.pde a) && present (overlapFreed.pte a)) = false := by
  by_contra hpage
  obtain ⟨hp, hq⟩ := Bool.and_eq_true_iff.mp (Bool.of_not_eq_false hpage)
  have hpde : overlapFreed.pde a = directoryWord 1 2004 1 2 (dirIndex a) :=
    congrFun (overlapFreed_ram (f := 1) (by decide)) (dirIndex a)
  rw [hpde] at hp
  have hframe := (directoryWord_present (by decide) (dirIndex_user ha) hp).2.1
  rw [Machine.pte, hpde, hframe] at hq
  by_cases hj : pageTableIndex a = 0
  · rw [hj, overlapFreed, setWord_self, present_absent] at hq
    cases hq
  · rw [overlapFreed, setWord_of_ne _ _ _ _ (Or.inr hj), drop_ram,
      show overlap.ram 2004 (pageTableIndex a) = 0#32 from if_neg hj] at hq
    cases hq

/-- A round of the first loop. -/
theorem overlap_page (hi : i < KERNEL_MEMORY / PAGE_SIZE) :
    Returns (freePage allocPageFrame (i * PAGE_SIZE)) (if i ≤ 1024 then overlap else overlapFreed) ()
      (if i + 1 ≤ 1024 then overlap else overlapFreed) := by
  have ha := pageNumber_user hi
  have hunshared : shared (directoryWord 1 2004 1 2 (dirIndex (i * PAGE_SIZE))) = false :=
    directoryWord_unshared (dirIndex_user ha)
  rw [freePage]
  rcases lt_trichotomy i 1024 with hlt | rfl | hgt
  · rw [if_pos hlt.le, if_pos (by omega)]
    refine (freePage_absent overlap_env (user_lt ha) (overlap_absent ?_)).mpr rfl
    rw [PAGE_SIZE]
    omega
  · rw [if_pos (le_refl _), if_neg (by omega), freePage_ok overlap_env (user_lt ha) hunshared, if_pos (by decide)]
    have hpte : overlap.pte (1024 * PAGE_SIZE) = mkEntry 2006 7#32 := by decide
    have hframe : frameOf (mkEntry 2006 7#32) = 2006 := by decide
    have htable : frameOf (overlap.pde (1024 * PAGE_SIZE)) = 2004 := by decide
    have hindex : pageTableIndex (1024 * PAGE_SIZE) = 0 := by decide
    rw [hpte, hframe, htable, hindex, overlapFreed]
  · have hpde : overlapFreed.pde (i * PAGE_SIZE) = directoryWord 1 2004 1 2 (dirIndex (i * PAGE_SIZE)) :=
      congrFun (overlapFreed_ram (f := 1) (by decide)) _
    rw [if_neg (by omega), if_neg (by omega), freePage_ok overlapFreed_env (user_lt ha) (hpde ▸ hunshared),
      overlapFreed_absent ha]
    exact (if_neg Bool.false_ne_true).symm

/-- After `i` rounds of the second loop. -/
structure OverlapLeft (i : Nat) (t : Machine) : Prop where
  env : Env t
  cr3 : t.cr3 = 1
  cur : t.cur = initTask smallImage
  entry : ∀ d, i ≤ d → t.ram 1 d = overlap.ram 1 d
  table : t.ram 2004 0 = absent (mkEntry 2006 7#32)
  count : t.bitmap 2006 = 254

theorem OverlapLeft.step {t : Machine} (hI : OverlapLeft i t) (hi : i < 768) :
    ∃ t', Returns (freePage allocPageFrame (getPageTable 0 + i * PAGE_SIZE)) t () t' ∧ OverlapLeft (i + 1) t' := by
  have haddr : getPageTable 0 + i * PAGE_SIZE = window i := by
    rw [getPageTable, window, PAGE_SIZE, dirIndex]
    omega
  have hself : shared (t.ram t.cr3 1023) = false := by
    rw [hI.cr3, hI.entry _ (by omega)]
    decide
  rw [haddr, freePage]
  refine ⟨_, (freeTable_iff hI.env hself hi).mpr rfl, ?_⟩
  cases hp : present (t.ram t.cr3 i) with
  | false =>
    rw [if_neg Bool.false_ne_true]
    exact ⟨hI.env, hI.cr3, hI.cur, fun d hd => hI.entry d (by omega), hI.table, hI.count⟩
  | true =>
    rw [hI.cr3, hI.entry i (le_refl _)] at hp ⊢
    obtain ⟨_, hframe, _⟩ := directoryWord_present (D := 1) (t := 2004) (by decide) hi hp
    rw [if_pos rfl, show frameOf (overlap.ram 1 i) = 2004 from hframe]
    have hdrop : Env (t.drop 2004) := hI.env.grow (fun _ _ _ => by rw [drop_ram]) (drop_cr3 ..) (drop_cur ..)
    have hcur : (t.drop 2004).cur.pageDirectory = KERNEL_MEMORY + PAGE_SIZE := by
      rw [drop_cur, hI.cur]
      rfl
    have hdir : dirIndex (t.drop 2004).cur.pageDirectory = 768 := by
      rw [hcur]
      decide
    have hpde : (t.drop 2004).pde (t.drop 2004).cur.pageDirectory = overlap.ram 1 768 := by
      rw [Machine.pde, hdir, drop_ram, drop_cr3, hI.cr3, hI.entry _ (by omega)]
    have hcr3 : (t.drop 2004).cr3 = 1 := by rw [drop_cr3, hI.cr3]
    refine ⟨?_, hcr3, ?_, fun d hd => ?_, ?_, ?_⟩
    · refine hdrop.setWord (Or.inr (by omega)) (Or.inr (by omega)) (Or.inl ?_)
      rw [hpde]
      decide
    · rw [← hI.cur, ← drop_cur t 2004]
      rfl
    · rw [setWord_of_ne _ _ _ _ (Or.inr (by omega)), drop_ram]
      exact hI.entry d (by omega)
    · rw [setWord_of_ne _ _ _ _ (Or.inl (by decide)), drop_ram]
      exact hI.table
    · rw [setWord_bitmap, ← hI.count, Machine.drop]
      split_ifs
      · exact setCount_of_ne _ _ _ (by decide)
      · rfl

/-- **The conditions are not enough**: the page 2006, which has two addresses, is counted once when both are gone, and
what the second task reads in its page 2004 is changed. -/
theorem freeMemUsr_overlap : Family overlap ∧ ∃ m', Returns (freeMemUsr allocPageFrame) overlap () m' ∧
    (m'.bitmap 2006).toNat + held overlap.ram overlap.cr3 2006 ≠ (overlap.bitmap 2006).toNat ∧ ¬ OthersKept overlap m' := by
  have hpages : Returns (loop (fun i => freePage allocPageFrame (i * PAGE_SIZE)) (KERNEL_MEMORY / PAGE_SIZE)) overlap ()
      overlapFreed := by
    obtain ⟨t, ht, rfl⟩ := loop_returns (fun i t => t = if i ≤ 1024 then overlap else overlapFreed) rfl
      fun i t hi hI => ⟨_, hI ▸ overlap_page hi, rfl⟩
    exact ht
  have hleft : OverlapLeft 0 overlapFreed :=
    ⟨overlapFreed_env, rfl, rfl, fun d _ => congrFun (overlapFreed_ram (by decide)) d, setWord_self .., by decide⟩
  obtain ⟨m', htables, hI⟩ := loop_returns OverlapLeft hleft fun i t hi hI => hI.step hi
  have hsize : (getPageTable KERNEL_MEMORY - getPageTable 0) / PAGE_SIZE = 768 := by
    norm_num [getPageTable, KERNEL_MEMORY, PAGE_SIZE, dirIndex]
  refine ⟨overlap_family, m', ?_, ?_, fun hkept => ?_⟩
  · rw [freeMemUsr, Returns.bind_iff hpages, hsize]
    exact htables
  · -- the page has the numbers 1024 and 2048
    have hsub : {1024, 2048} ⊆ pagesOf overlap.ram overlap.cr3 2006 := by
      intro n hn
      rw [Finset.mem_insert, Finset.mem_singleton] at hn
      rcases hn with rfl | rfl
      · exact Finset.mem_filter.mpr ⟨Finset.mem_range.mpr (by decide), by decide⟩
      · exact Finset.mem_filter.mpr ⟨Finset.mem_range.mpr (by decide), by decide⟩
    have hcard := Finset.card_le_card hsub
    rw [show ({1024, 2048} : Finset Nat).card = 2 by decide] at hcard
    rw [hI.count, held, show (254 : UInt8).toNat = 254 from rfl, show (overlap.bitmap 2006).toNat = 255 from rfl]
    omega
  · have hsecond : IsDirectory overlap 1 2001 := ⟨_, rfl, by decide⟩
    have hpage : HasPage overlap.ram 2001 1 0 := ⟨by decide, by decide, by decide, by decide⟩
    have hsame := congrFun (hkept.contents 1 2001 1 0 (by decide) hsecond hpage) 0
    rw [show pageOf overlap.ram 2001 1 0 = 2004 by decide, hI.table] at hsame
    exact absurd hsame (by decide)

end Sweep

end Raampjes.Mm
