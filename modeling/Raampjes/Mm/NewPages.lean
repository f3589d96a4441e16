import Raampjes.Mm.CopyOnWrite

/-!
# New pages

- `Filled.counted`: a page that is mapped, and its page table, are counted;
- `doExecve_blank`: the first program, when it has no segments: its stack page is all it has.
-/

namespace Raampjes.Mm

open Progs Refs Runs

/-! ## The counters of new pages -/

section Counters

variable {alloc : Kernel Nat} {m m' m1 : Machine} {L L' L1 : Layout} {T : Finset Nat} {d f t a : Nat} {flags : Word}

/-- The words that a new page table leaves alone. -/
theorem addTable_of_ne (hne : t ≠ m.cr3) {g j : Nat} (hg : g ≠ t) (hgj : g ≠ m.cr3 ∨ j ≠ d) :
    (m.addTable d t flags).ram g j = m.ram g j := by
  rw [addTable_eq hne, setWord_of_ne _ _ _ _ hgj, setCount_ram, setFrame_of_ne _ _ _ hg]

theorem Opened.kernelKept (ho : Opened alloc m L d flags m1 L1) (h : Sound m L T) (hd : d < 768) : KernelKept m L m1 := by
  cases ho with
  | own hp hs => exact ⟨fun _ _ => rfl, fun _ _ _ _ _ => rfl⟩
  | copied K k new m1 hp hs hK hk hnew hlt hzero hfresh =>
    exact unshared_kernelKept h.holds hK (Spot.window h.holds hd hp) ((Spot.window h.holds hd hp).apart h.holds hfresh)
  | made t hp ht hlt hfresh =>
    have hne : t ≠ m.cr3 := fun he => hfresh (he ▸ h.holds.reaches_cr3)
    refine ⟨fun i _ => ?_, fun K j hK _ _ => ?_⟩
    · exact addTable_of_ne hne (fun he => hfresh (he ▸ h.holds.reaches_low))
        (Or.inl (ne_of_role h.holds.low_role h.holds.current_role (by simp)))
    · exact addTable_of_ne hne (fun he => hfresh (he ▸ h.holds.reaches_ktab hK))
        (Or.inl (ne_of_role (h.holds.ktab_role K hK) h.holds.current_role (by simp)))

/-- The other directory entries stay. -/
theorem Opened.dir (ho : Opened alloc m L d flags m1 L1) (h : Sound m L T) (hd : d < 768) {d' : Nat} (hne : d' ≠ d) :
    m1.ram m.cr3 d' = m.ram m.cr3 d' := by
  cases ho with
  | own hp hs => rfl
  | copied K k new m1 hp hs hK hk hnew hlt hzero hfresh =>
    have hap := (Spot.window h.holds hd hp).apart h.holds hfresh
    obtain ⟨hpde, _, hidx⟩ := window_words h.holds hd
    obtain ⟨h1, _, _, _⟩ := @unshared_words m _ L K k new (window d) 6#32 hK (Spot.window h.holds hd hp) hap rfl
    rw [hpde, hidx] at h1
    rw [h1, Function.update_of_ne hne]
  | made t hp ht hlt hfresh =>
    have hnt : t ≠ m.cr3 := fun he => hfresh (he ▸ h.holds.reaches_cr3)
    exact addTable_of_ne hnt hnt.symm (Or.inr hne)

/-- **The counters follow** the page table. -/
theorem Opened.toNat (ho : Opened alloc m L d flags m1 L1) (h : Sound m L T) (hd : d < 768) (hfl : Plain flags)
    (hA : Hands alloc m) (hcount : present (m.ram m.cr3 d) = true → m.bitmap (frameOf (m.ram m.cr3 d)) ≠ 0) :
    (m1.bitmap f).toNat + (if present (m.ram m.cr3 d) = true ∧ frameOf (m.ram m.cr3 d) = f then 1 else 0) =
      (m.bitmap f).toNat + (if present (m1.ram m.cr3 d) = true ∧ frameOf (m1.ram m.cr3 d) = f then 1 else 0) := by
  cases ho with
  | own hp hs => rfl
  | copied K k new m1 hp hs hK hk hnew hlt hzero hfresh =>
    obtain ⟨_, hpte, _⟩ := window_words h.holds hd
    have hcopy := @unshared_toNat m K k new (window d) f 6#32 hzero (by rw [hpte]; exact hcount hp)
    rw [hpte] at hcopy
    rw [unshared_pde h.holds hK hd hp ((Spot.window h.holds hd hp).apart h.holds hfresh),
      frameOf_mkEntry hlt (by decide), present_mkEntry, hp]
    simp only [true_and, eq_comm (b := f)]
    simpa using hcopy
  | made t hp ht hlt hfresh =>
    have hnt : t ≠ m.cr3 := fun he => hfresh (he ▸ h.holds.reaches_cr3)
    have hzero := (hA.take ht).2.1
    have hword : (m.addTable d t flags).ram m.cr3 d = mkEntry t (flags ||| 3#32) := by
      rw [addTable_eq hnt]
      exact setWord_self ..
    have hbitmap : (m.addTable d t flags).bitmap f = if f = t then 1 else m.bitmap f := by
      rw [addTable_eq hnt]
      by_cases hf : f = t
      · rw [if_pos hf, hf]
        exact setCount_self ..
      · rw [if_neg hf]
        exact setCount_of_ne _ _ _ hf
    rw [hword, hbitmap, hp, frameOf_mkEntry hlt (hfl.or plain_three).lt]
    by_cases hf : f = t
    · rw [if_pos hf, hf, hzero]
      simp
    · simp [hf, eq_comm (b := f)]

theorem Opened.balanced (ho : Opened alloc m L d flags m1 L1) (h : Sound m L T) (hd : d < 768) (hfl : Plain flags)
    (hA : Hands alloc m) (hcount : present (m.ram m.cr3 d) = true → m.bitmap (frameOf (m.ram m.cr3 d)) ≠ 0) :
    Balanced (held m.ram m.cr3) (held m1.ram m.cr3) (fun f => (m.bitmap f).toNat) fun f => (m1.bitmap f).toNat := by
  intro f
  have hpages : pagesOf m1.ram m.cr3 f = pagesOf m.ram m.cr3 f := by
    apply Finset.filter_congr
    intro n hn
    rw [walk_of_samePages (ho.pages h hd hfl) (pageNumber_user (Finset.mem_range.mp hn))]
  have htables := tablesOf_change (f := f) hd fun d' _ hne => ho.dir h hd hne
  have hcounts := ho.toNat h hd hfl hA hcount (f := f)
  rw [held, held, hpages]
  show (m1.bitmap f).toNat + _ = (m.bitmap f).toNat + _
  omega

/-- One page more under a page table that is there. -/
theorem held_mapped (h : Sound m L T) (ha : a < KERNEL_MEMORY) (hp : present (m.ram m.cr3 (dirIndex a)) = true)
    (hlt : f < 2 ^ 20) (hfl : Plain flags) (hno : ¬ HasPage m.ram m.cr3 (dirIndex a) (pageTableIndex a)) (g : Nat) :
    held (m.mapped a f flags).ram m.cr3 g = held m.ram m.cr3 g + if f = g then 1 else 0 := by
  have hmap := @mapped_pages a f flags m L h.holds ha hp
  have hrest : ∀ a', a' < KERNEL_MEMORY → a' / PAGE_SIZE ≠ a / PAGE_SIZE →
      walk (m.mapped a f flags).ram m.cr3 a' = walk m.ram m.cr3 a' := fun a' ha' hne => by
    obtain ⟨hiff, heq⟩ := (hmap (dirIndex a') (pageTableIndex a')).2 fun he => hne (same_page_iff.mpr he)
    exact walk_of_page ha' hiff heq
  have hbefore : walk m.ram m.cr3 a = none := by
    by_contra hsome
    obtain ⟨g, hg⟩ := Option.ne_none_iff_exists'.mp hsome
    exact hno (walk_user ha hg).1
  have hafter : walk (m.mapped a f flags).ram m.cr3 a = some f := by
    obtain ⟨hhas, hentry⟩ := (hmap _ _).1 ⟨rfl, rfl⟩
    refine walk_eq_some.mpr ⟨hhas.2.2.1, hhas.2.2.2, ?_⟩
    rw [pteAt] at hentry
    rw [hentry, frameOf_mkEntry hlt (hfl.or plain_one).lt]
  have hdir : ∀ d', (m.mapped a f flags).ram m.cr3 d' = m.ram m.cr3 d' := fun d' =>
    setWord_of_ne _ _ _ _ (Or.inl (ne_of_role h.holds.current_role (h.holds.curSpace.table _ (dirIndex_user ha) hp) (by simp)))
  have htables : tablesOf (m.mapped a f flags).ram m.cr3 g = tablesOf m.ram m.cr3 g := by
    apply Finset.filter_congr
    intro d' _
    rw [hdir]
  have hpages := pagesOf_change (f := g) ha hrest
  rw [hbefore, hafter] at hpages
  rw [held, held, htables]
  simp only [reduceCtorEq, if_false, Option.some.injEq] at hpages
  omega

/-- Mapping a page does not touch the kernel half. -/
theorem Filled.kernelKept (hF : Filled alloc m L a flags m' L') (h : Sound m L T) (ha : a < KERNEL_MEMORY) :
    KernelKept m L m' := by
  obtain ⟨f, fl, m1, L1, _, hlt, hzero, hfresh, hfl1, ho, rfl, rfl⟩ := hF
  obtain ⟨h1, l1⟩ := h.taken hfresh
  have hd := dirIndex_user ha
  obtain ⟨h2, l2⟩ := ho.sound h1 hd hfl1
  have hcr3 : m1.cr3 = m.cr3 := l2.same.cr3
  have hkernel := ho.kernelKept h1 hd
  have hp1 : present (m1.ram m1.cr3 (dirIndex a)) = true := by
    rw [hcr3]
    exact (ho.private_ h1 hd hfl1).1
  have htable := h2.holds.curSpace.table _ hd hp1
  refine ⟨fun i hi => ?_, fun K j hK hj hpj => ?_⟩
  · have hne : L.pt1 ≠ frameOf (m1.ram m1.cr3 (dirIndex a)) := by
      have hpt1 : L1.pt1 = L.pt1 := l2.pt1
      rw [← hpt1]
      exact ne_of_role h2.holds.low_role htable (by simp)
    exact (setWord_of_ne _ _ _ _ (Or.inl hne)).trans (hkernel.low i hi)
  · have hne : K ≠ frameOf (m1.ram m1.cr3 (dirIndex a)) :=
      ne_of_role (h2.holds.ktab_role K (l2.ktab.trans hK)) htable (by simp)
    have hsame : (m1.mapped a f flags).ram K j = m1.ram K j := setWord_of_ne _ _ _ _ (Or.inl hne)
    rw [hsame] at hpj ⊢
    exact hkernel.slot K j hK hj hpj

/-- **The counters follow** a new page. -/
theorem Filled.balanced (hF : Filled alloc m L a flags m' L') (h : Sound m L T) (hc : Counted m) (ha : a < KERNEL_MEMORY)
    (hfl : Plain flags) (hA1 : ∀ f, Hands alloc (m.setCount f 1))
    (hno : ¬ HasPage m.ram m.cr3 (dirIndex a) (pageTableIndex a)) :
    Balanced (held m.ram m.cr3) (held m'.ram m.cr3) (fun f => (m.bitmap f).toNat) fun f => (m'.bitmap f).toNat := by
  obtain ⟨f, fl, m1, L1, _, hlt, hzero, hfresh, hfl1, ho, rfl, rfl⟩ := hF
  obtain ⟨h1, l1⟩ := h.taken hfresh
  have hd := dirIndex_user ha
  obtain ⟨h2, l2⟩ := ho.sound h1 hd hfl1
  have hcr3 : m1.cr3 = m.cr3 := l2.same.cr3
  have hcount : present (m.ram m.cr3 (dirIndex a)) = true →
      (m.setCount f 1).bitmap (frameOf (m.ram m.cr3 (dirIndex a))) ≠ 0 := fun hpd => by
    have hreach := h.holds.reaches_table hd hpd
    have hne : frameOf (m.ram m.cr3 (dirIndex a)) ≠ f := fun he => hfresh (he ▸ hreach)
    rw [setCount_of_ne _ _ _ hne]
    exact hc.ne_zero h.holds hreach
  have hopened := ho.balanced h1 hd hfl1 (hA1 f) hcount
  have hno1 : ¬ HasPage m1.ram m1.cr3 (dirIndex a) (pageTableIndex a) := fun hpg => by
    rw [hcr3] at hpg
    exact hno ((ho.pages h1 hd hfl1 _ _).1.mp hpg)
  have hp1 : present (m1.ram m1.cr3 (dirIndex a)) = true := by
    rw [hcr3]
    exact (ho.private_ h1 hd hfl1).1
  have hmapped := held_mapped h2 ha hp1 hlt hfl hno1
  intro g
  have hbal : (m1.bitmap g).toNat + held m.ram m.cr3 g = ((m.setCount f 1).bitmap g).toNat + held m1.ram m.cr3 g :=
    hopened g
  have hheld := hmapped g
  rw [hcr3] at hheld
  have hone : ((m.setCount f 1).bitmap g).toNat = (m.bitmap g).toNat + if f = g then 1 else 0 := by
    by_cases hg : f = g
    · rw [← hg, setCount_self, hzero, if_pos rfl]
      rfl
    · rw [setCount_of_ne _ _ _ (Ne.symm hg), if_neg hg, Nat.add_zero]
  show (m1.bitmap g).toNat + held m.ram m.cr3 g = (m.bitmap g).toNat + held (m1.mapped a f flags).ram m.cr3 g
  omega

/-- **The counters stay covered** when a page is mapped. -/
theorem Filled.counted (hF : Filled alloc m L a flags m' L') (h : Sound m L T) (hc : Counted m) (ha : a < KERNEL_MEMORY)
    (hfl : Plain flags) (hA1 : ∀ f, Hands alloc (m.setCount f 1))
    (hno : ¬ HasPage m.ram m.cr3 (dirIndex a) (pageTableIndex a)) : Counted m' := by
  obtain ⟨h', hl⟩ := hF.sound h ha hfl hA1
  exact hc.local h.holds h'.holds hl (hF.kernelKept h ha) (hF.balanced h hc ha hfl hA1 hno)

end Counters

/-! ## A program without segments -/

/-- An ELF file with one header, of type `PT_NULL`. -/
def blankElf : File where
  size := 84
  bytes i := if i = 0 then 0x7f else if i = 1 then 0x45 else if i = 2 then 0x4c else if i = 3 then 0x46
    else if i = 28 then 52 else if i = 44 then 1 else 0

theorem blankElf_phdrs : blankElf.phdrs = [⟨PT_NULL, 0, 0, 0, 0, 0⟩] := by decide

theorem blankElf_below : blankElf.Below := by
  have htaken : blankElf.taken = [] := by
    rw [File.taken, blankElf_phdrs]
    rfl
  rw [File.Below, if_pos (by decide), htaken]
  exact fun _ hh => absurd hh List.not_mem_nil

/-- Nothing is loaded. -/
theorem loadFile_blank {alloc : Kernel Nat} {m : Machine} :
    Returns (loadFile alloc blankElf) m () (m.setCur { m.cur with stackFrame := { m.cur.stackFrame with eip := 0 } }) := by
  have hcount : decide (blankElf.ePhnum = 0) = false := by decide
  have hsegment : Returns (blankElf.phdrs.forM (loadSegment alloc blankElf)) m () m := by
    rw [blankElf_phdrs]
    simp [loadSegment, List.forM_eq_forM]
  have hentry : blankElf.eEntry = 0 := by decide
  rw [loadFile, if_pos (by decide), loadElf, onlyIf_neg hcount, Returns.bind_iff (pure_ok.mpr ⟨rfl, rfl⟩),
    Returns.bind_iff hsegment, hentry, setEip, update_ok]

/-- The machine with a stack page in the frame `f`, under a page table in the frame `t`. -/
def Machine.stacked (m : Machine) (f t : Nat) : Machine :=
  ((m.setCount f 1).addTable 767 t (PG_USER ||| PG_RW)).mapped (KERNEL_MEMORY - PAGE_SIZE) f (PG_USER ||| PG_RW)

/-- The same for a page of `a`. -/
def Machine.paged (m : Machine) (a f t : Nat) : Machine :=
  ((m.setCount f 1).addTable (dirIndex a) t (PG_USER ||| PG_RW)).mapped a f (PG_USER ||| PG_RW)

section Paged

variable {m : Machine} {a f t g j : Nat}

theorem stacked_eq (m : Machine) (f t : Nat) : m.stacked f t = m.paged (KERNEL_MEMORY - PAGE_SIZE) f t := rfl

/-- The words of the new page and of its page table. -/
theorem paged_ram (hnc : t ≠ m.cr3) (ht : t < 2 ^ 20) : (m.paged a f t).ram =
    (((m.setFrame t (filled 1024 (fun _ => 0#32) (m.ram t))).setWord m.cr3 (dirIndex a) (mkEntry t 7#32)).setWord t
      (pageTableIndex a) (mkEntry f 7#32)).ram := by
  have hne : t ≠ (m.setCount f 1).cr3 := hnc
  have hpde : ((m.setCount f 1).addTable (dirIndex a) t (PG_USER ||| PG_RW)).pde a = mkEntry t (PG_USER ||| PG_RW ||| 3#32) :=
    addTable_pde hne
  rw [Machine.paged, Machine.mapped, hpde, frameOf_mkEntry ht (by decide), addTable_eq hne]
  rfl

theorem paged_dir (hnc : t ≠ m.cr3) (ht : t < 2 ^ 20) (d : Nat) : (m.paged a f t).ram m.cr3 d =
    if d = dirIndex a then mkEntry t 7#32 else m.ram m.cr3 d := by
  rw [paged_ram hnc ht, setWord_of_ne _ _ _ _ (Or.inl hnc.symm)]
  by_cases hd : d = dirIndex a
  · rw [if_pos hd, hd, setWord_self]
  · rw [if_neg hd, setWord_of_ne _ _ _ _ (Or.inr hd), setFrame_of_ne _ _ _ hnc.symm]

theorem paged_table (hnc : t ≠ m.cr3) (ht : t < 2 ^ 20) (hj : j < 1024) : (m.paged a f t).ram t j =
    if j = pageTableIndex a then mkEntry f 7#32 else 0#32 := by
  rw [paged_ram hnc ht]
  by_cases hi : j = pageTableIndex a
  · rw [if_pos hi, hi, setWord_self]
  · rw [if_neg hi, setWord_of_ne _ _ _ _ (Or.inr hi), setWord_of_ne _ _ _ _ (Or.inl hnc), setFrame_self, filled_lt hj]

theorem paged_of_ne (hnc : t ≠ m.cr3) (ht : t < 2 ^ 20) (hg : g ≠ m.cr3) (hgt : g ≠ t) :
    (m.paged a f t).ram g = m.ram g := by
  funext j
  rw [paged_ram hnc ht, setWord_of_ne _ _ _ _ (Or.inl hgt), setWord_of_ne _ _ _ _ (Or.inl hg), setFrame_of_ne _ _ _ hgt]

theorem paged_bitmap (hnc : t ≠ m.cr3) (hf : g ≠ f) (ht : g ≠ t) : (m.paged a f t).bitmap g = m.bitmap g := by
  have hne : t ≠ (m.setCount f 1).cr3 := hnc
  rw [Machine.paged, Machine.mapped, setWord_bitmap, addTable_eq hne, setWord_bitmap, setCount_of_ne _ _ _ ht,
    setFrame_bitmap, setCount_of_ne _ _ _ hf]

/-- The new counters are small. -/
theorem paged_le_one (hnc : t ≠ m.cr3) (h : ∀ g, m.bitmap g ≤ 1) : (m.paged a f t).bitmap g ≤ 1 := by
  have hne : t ≠ (m.setCount f 1).cr3 := hnc
  rw [Machine.paged, Machine.mapped, setWord_bitmap, addTable_eq hne, setWord_bitmap]
  by_cases ht : g = t
  · rw [ht, setCount_self]
    exact le_refl 1
  · rw [setCount_of_ne _ _ _ ht, setFrame_bitmap]
    by_cases hf : g = f
    · rw [hf, setCount_self]
      exact le_refl 1
    · rw [setCount_of_ne _ _ _ hf]
      exact h g

/-- Two frames are taken. -/
theorem paged_room (hnc : t ≠ m.cr3) : (freeFrames m).card ≤ (freeFrames (m.paged a f t)).card + 2 := by
  have hkeep : freeFrames m \ {f, t} ⊆ freeFrames (m.paged a f t) := by
    intro g hg
    obtain ⟨hg, hne⟩ := Finset.mem_sdiff.mp hg
    obtain ⟨hlt, hzero⟩ := Finset.mem_filter.mp hg
    simp only [Finset.mem_insert, Finset.mem_singleton, not_or] at hne
    exact Finset.mem_filter.mpr ⟨hlt, (paged_bitmap hnc hne.1 hne.2).trans hzero⟩
  have hcard := Finset.card_le_card hkeep
  have htwo : ({f, t} : Finset Nat).card ≤ 2 := Finset.card_le_two
  have hsub := Finset.le_card_sdiff ({f, t} : Finset Nat) (freeFrames m)
  omega

end Paged

/-- The task after the first program is loaded. -/
def TaskStruct.started (t : TaskStruct) : TaskStruct :=
  startTask (KERNEL_MEMORY - PAGE_SIZE) { t with stackFrame := { t.stackFrame with eip := 0 } }

section Blank

variable {alloc : Kernel Nat} {m : Machine} {L : Layout} {T : Finset Nat} {f t : Nat}

/-- The teardown of an empty address space. -/
theorem freeMemUsr_blank (h : Holds m L) (hno : ∀ d, d < 768 → present (m.ram m.cr3 d) = false) :
    Returns (freeMemUsr alloc) m () m := by
  have hpages : Returns (loop (fun i => freePage alloc (i * PAGE_SIZE)) (KERNEL_MEMORY / PAGE_SIZE)) m () m := by
    refine loop_eq (fun _ => m) fun i hi => ?_
    have ha := pageNumber_user hi
    exact (freePage_absent h.env (user_lt ha) (hno _ (dirIndex_user ha))).mpr rfl
  have hsize : (getPageTable KERNEL_MEMORY - getPageTable 0) / PAGE_SIZE = 768 := by
    norm_num [getPageTable, KERNEL_MEMORY, PAGE_SIZE, dirIndex]
  rw [freeMemUsr, Returns.bind_iff hpages, hsize]
  refine loop_eq (fun _ => m) fun d hd => ?_
  have haddr : getPageTable 0 + d * PAGE_SIZE = window d := by
    rw [getPageTable, window, PAGE_SIZE, dirIndex]
    omega
  rw [haddr, freePage, freeTable_ok h hd, hno d hd, if_neg Bool.false_ne_true]

/-- **A program starts** after the teardown, when its file is loaded. -/
theorem doExecve_after {file : File} {m₀ m' : Machine} (hfree : Returns (freeMemUsr alloc) m₀ () m) (h : Sound m L T)
    (hno : ∀ d, d < 768 → present (m.ram m.cr3 d) = false) (hf : Returns alloc m f (m.setCount f 1)) (hfresh : ¬ Reaches m f)
    (hA1 : Hands alloc (m.setCount f 1)) (ht : Returns alloc (m.setCount f 1) t ((m.setCount f 1).setCount t 1))
    (hload : Returns (loadFile alloc file) (m.stacked f t) () m') :
    Returns (doExecve alloc (some file)) m₀ 0 (m'.setCur (startTask (KERNEL_MEMORY - PAGE_SIZE) m'.cur)) := by
  obtain ⟨h1, _⟩ := h.taken hfresh
  have hpde : present ((m.setCount f 1).pde (KERNEL_MEMORY - PAGE_SIZE)) = false := hno 767 (by decide)
  have hmap : Returns (mapPage alloc f (KERNEL_MEMORY - PAGE_SIZE) (PG_USER ||| PG_RW)) (m.setCount f 1)
      (KERNEL_MEMORY - PAGE_SIZE) (m.stacked f t) :=
    (mapPage_absent h1 (by decide) hpde plain_userRw hA1).mpr ⟨rfl, t, ht, rfl⟩
  rw [doExecve, Returns.bind_iff hfree, Returns.bind_iff hf, Returns.bind_iff hmap, Returns.bind_iff hload,
    Returns.bind_iff ((update_ok _ ()).mpr rfl), pure_ok]
  exact ⟨rfl, rfl⟩

/-- A program starts where no user memory is. -/
theorem doExecve_first {file : File} {m' : Machine} (h : Sound m L T)
    (hno : ∀ d, d < 768 → present (m.ram m.cr3 d) = false) (hf : Returns alloc m f (m.setCount f 1)) (hfresh : ¬ Reaches m f)
    (hA1 : Hands alloc (m.setCount f 1)) (ht : Returns alloc (m.setCount f 1) t ((m.setCount f 1).setCount t 1))
    (hload : Returns (loadFile alloc file) (m.stacked f t) () m') :
    Returns (doExecve alloc (some file)) m 0 (m'.setCur (startTask (KERNEL_MEMORY - PAGE_SIZE) m'.cur)) :=
  doExecve_after (freeMemUsr_blank h.holds hno) h hno hf hfresh hA1 ht hload

/-- **The first program**, when it has no segments. -/
theorem doExecve_blank (h : Sound m L T) (hno : ∀ d, d < 768 → present (m.ram m.cr3 d) = false)
    (hf : Returns alloc m f (m.setCount f 1)) (hfresh : ¬ Reaches m f) (hA1 : Hands alloc (m.setCount f 1))
    (ht : Returns alloc (m.setCount f 1) t ((m.setCount f 1).setCount t 1)) :
    Returns (doExecve alloc (some blankElf)) m 0 ((m.stacked f t).setCur m.cur.started) := by
  have hrun := doExecve_first h hno hf hfresh hA1 ht loadFile_blank
  have hcur : (m.stacked f t).cur = m.cur := rfl
  rw [setCur_cur, hcur] at hrun
  simp only [Machine.setCur, Function.update_idem] at hrun
  exact hrun

/-- One frame is taken, and another is free. -/
theorem room_setCount (hroom : 2 ≤ (freeFrames m).card) : ∃ g, g < frames ∧ (m.setCount f 1).bitmap g = 0 := by
  have hcard : 0 < ((freeFrames m).erase f).card := by
    have := Finset.pred_card_le_card_erase (s := freeFrames m) (a := f)
    omega
  obtain ⟨g, hg⟩ := Finset.card_pos.mp hcard
  obtain ⟨hne, hg⟩ := Finset.mem_erase.mp hg
  obtain ⟨hlt, hzero⟩ := Finset.mem_filter.mp hg
  exact ⟨g, Finset.mem_range.mp hlt, by rwa [setCount_of_ne _ _ _ hne]⟩

end Blank

section Start

variable {img : Image} {tag : MmapTag} {table : FrameTable} {ram : Nat → Nat → Word} {m : Machine} {L : Layout} {f t : Nat}

/-- Of the free frames, all unreferenced, one is handed out. -/
theorem allocUnreferenced_returns (hidle : ∀ g, m.bitmap g = 0 → ¬ Reaches m g) (hroom : ∃ g, g < frames ∧ m.bitmap g = 0) :
    ∃ f, Returns allocUnreferenced m f (m.setCount f 1) := by
  obtain ⟨f, hf⟩ := allocPageFrame_returns hroom
  exact ⟨f, allocUnreferenced_ok.mpr ⟨hf, hidle f (allocPageFrame_ok hf).2.1⟩⟩

theorem idle_setCount (hidle : ∀ g, m.bitmap g = 0 → ¬ Reaches m g) :
    ∀ g, (m.setCount f 1).bitmap g = 0 → ¬ Reaches (m.setCount f 1) g := by
  intro g hg hr
  have hne : g ≠ f := by
    rintro rfl
    rw [setCount_self] at hg
    exact absurd hg (by decide)
  rw [setCount_of_ne _ _ _ hne] at hg
  exact hidle g hg hr

/-- The frames `f` and `t` are taken for the stack of the first program and its page table. -/
structure Starts (m : Machine) (f t : Nat) : Prop where
  frame : Returns allocUnreferenced m f (m.setCount f 1)
  table : Returns allocUnreferenced (m.setCount f 1) t ((m.setCount f 1).setCount t 1)

theorem Starts.fresh (hS : Starts m f t) : f < frames ∧ m.bitmap f = 0 ∧ ¬ Reaches m f ∧ t < frames ∧ m.bitmap t = 0 ∧
    ¬ Reaches m t ∧ t ≠ f := by
  obtain ⟨hf, hnf⟩ := allocUnreferenced_ok.mp hS.frame
  obtain ⟨ht, hnt⟩ := allocUnreferenced_ok.mp hS.table
  obtain ⟨hflt, hfzero, _⟩ := allocPageFrame_ok hf
  obtain ⟨htlt, htzero, _⟩ := allocPageFrame_ok ht
  have hne : t ≠ f := by
    rintro rfl
    rw [setCount_self] at htzero
    exact absurd htzero (by decide)
  rw [setCount_of_ne _ _ _ hne] at htzero
  exact ⟨hflt, hfzero, hnf, htlt, htzero, hnt, hne⟩

/-- Two frames are enough. -/
theorem exists_starts (hidle : ∀ g, m.bitmap g = 0 → ¬ Reaches m g) (hroom : 2 ≤ (freeFrames m).card) :
    ∃ f t, Starts m f t := by
  obtain ⟨g, hg⟩ : ∃ g, g ∈ freeFrames m := Finset.card_pos.mp (by omega)
  obtain ⟨hlt, hzero⟩ := Finset.mem_filter.mp hg
  obtain ⟨f, hf⟩ := allocUnreferenced_returns hidle ⟨g, Finset.mem_range.mp hlt, hzero⟩
  obtain ⟨t, ht⟩ := allocUnreferenced_returns (idle_setCount (f := f) hidle) (room_setCount hroom)
  exact ⟨f, t, hf, ht⟩

/-- **The first program starts.** -/
theorem boot_starts (hroom : 2 ≤ (freeFrames (boot img tag table ram)).card) : ∃ f t, Starts (boot img tag table ram) f t :=
  exists_starts (fun _ hz hr => boot_counted.ne_zero (boot_sound img tag table ram).holds hr hz) hroom

theorem Starts.execve (hS : Starts (boot img tag table ram) f t) :
    step allocUnreferenced (boot img tag table ram) (.execve (some blankElf)) =
      some (((boot img tag table ram).stacked f t).setCur (boot img tag table ram).cur.started, []) := by
  have hrun := doExecve_blank (boot_sound img tag table ram) (fun d hd => boot_absent img tag table ram hd)
    hS.frame hS.fresh.2.2.1 (hands_unreferenced _) hS.table
  exact step_ok.mpr ⟨rfl, (bind_ok _ _ _).mpr ⟨_, _, hrun, pure_ok.mpr ⟨rfl, rfl⟩⟩⟩

/-- The page of `a` is a new page. -/
theorem Starts.paged (hS : Starts m f t) {a : Nat} (hno : present (m.pde a) = false) :
    Filled allocUnreferenced m L a (PG_USER ||| PG_RW) (m.paged a f t)
      (((L.use f .unused).use t (.table (dirIndex a))).use f .data) := by
  obtain ⟨hflt, hfzero, hnf, htlt, _, hnt, _⟩ := hS.fresh
  rw [frames_eq] at hflt htlt
  exact ⟨f, PG_USER ||| PG_RW, _, _, hS.frame, hflt, hfzero, hnf, plain_userRw,
    .made t hno hS.table htlt hnt, rfl, rfl⟩

theorem Starts.filled (hS : Starts m f t) (hno : present (m.ram m.cr3 767) = false) :
    Filled allocUnreferenced m L (KERNEL_MEMORY - PAGE_SIZE) (PG_USER ||| PG_RW) (m.stacked f t)
      (((L.use f .unused).use t (.table 767)).use f .data) := hS.paged hno

theorem Starts.table_ne (hS : Starts m f t) (h : Holds m L) : t ≠ m.cr3 := fun he => hS.fresh.2.2.2.2.2.1 (he ▸ h.reaches_cr3)

theorem Starts.table_lt (hS : Starts m f t) : t < 2 ^ 20 := frames_eq ▸ hS.fresh.2.2.2.1

/-- The directory of the first program. -/
theorem Starts.dir (hS : Starts m f t) (h : Holds m L) (d : Nat) : (m.stacked f t).ram m.cr3 d =
    if d = 767 then mkEntry t (PG_USER ||| PG_RW ||| 3#32) else m.ram m.cr3 d := by
  rw [stacked_eq, paged_dir (hS.table_ne h) hS.table_lt]
  rfl

theorem Starts.bitmap (hS : Starts m f t) (h : Holds m L) {g : Nat} (hf : g ≠ f) (ht : g ≠ t) :
    (m.stacked f t).bitmap g = m.bitmap g := by rw [stacked_eq, paged_bitmap (hS.table_ne h) hf ht]

/-- What is reached depends on the memory, and on where the directories are. -/
theorem SameTasks.reaches {m' : Machine} (hs : SameTasks m m') (hram : m'.ram = m.ram) {g : Nat} (hr : Reaches m' g) :
    Reaches m g := by
  obtain ⟨p, u, D, a, hu, ha, hD, hw⟩ := hr
  obtain ⟨u', hu', hkey⟩ := hs.symm.get hu
  have hdir : u'.pageDirectory = u.pageDirectory := by
    simp only [TaskStruct.key, Prod.mk.injEq] at hkey
    exact hkey.2.2.1
  rw [hram] at hw hD
  rw [hs.cr3, ← hdir] at hD
  exact ⟨p, u', D, a, hu', ha, hD, hw⟩

/-- After the first program starts, free frames are still unreferenced. -/
theorem Starts.idle (hS : Starts m f t) (h : Sound m L ∅) (hc : Counted m)
    (hno : present (m.ram m.cr3 767) = false) {g : Nat} (hg : (m.stacked f t).bitmap g = 0) :
    ¬ Reaches (m.stacked f t) g := by
  have hA1 : ∀ f, Hands allocUnreferenced (m.setCount f 1) := fun f => hands_unreferenced _
  have hF := @Starts.filled m L f t hS hno
  obtain ⟨h', _⟩ := hF.sound h (by decide) plain_userRw hA1
  have hpage : ¬ HasPage m.ram m.cr3 (dirIndex (KERNEL_MEMORY - PAGE_SIZE)) (pageTableIndex (KERNEL_MEMORY - PAGE_SIZE)) := by
    rintro ⟨_, _, hp, _⟩
    exact absurd (hp.symm.trans hno) (by decide)
  have hcounted := hF.counted h hc (by decide) plain_userRw hA1 hpage
  exact fun hr => hcounted.ne_zero h'.holds hr hg

end Start

/-- Free frames of a small machine. -/
theorem small_free {ram : Nat → Nat → Word} {g : Nat} (hge : 2000 ≤ g) (hlt : g < 2016) :
    (boot smallImage alignedMap ⟨fun _ => 0, []⟩ ram).bitmap g = 0 := by
  refine (free_iff alignedMap _ (by omega) (by rw [BITMAP_SIZE]; omega)).mpr ?_
  interval_cases g <;> decide

theorem small_freeFrames (ram : Nat → Nat → Word) :
    Finset.Ico 2000 2016 ⊆ freeFrames (boot smallImage alignedMap ⟨fun _ => 0, []⟩ ram) := by
  intro g hg
  obtain ⟨hge, hlt⟩ := Finset.mem_Ico.mp hg
  refine Finset.mem_filter.mpr ⟨Finset.mem_range.mpr ?_, small_free hge hlt⟩
  rw [frames_eq]
  omega

end Raampjes.Mm
