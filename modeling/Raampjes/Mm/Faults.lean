import Raampjes.Mm.UserHalf

/-!
# Page faults

- `pfNonPresent_cases`: a page that is not there gets a frame, or the first page under its directory entry does;
- `pfRoViolation_cases`: a write to a protected page of the user half gets the task a table of its own, with all its
  pages protected, and a page of its own;
- `pfRoViolation_window`: what is left of that for addresses of the kernel half;
- `guards_pageFault`: all of this keeps the layout.
-/

namespace Raampjes.Mm

open Progs Sched

section Missing

variable {alloc : Kernel Nat} {m m' : Machine} {L : Layout} {T : Finset Nat} {addr v f n : Nat} {flags : Word} {u : Unit}

theorem getFreeAddress_own (h : Env m) (ha : addr < KERNEL_MEMORY) (hp : present (m.pde addr) = true)
    (hq : present (m.pte addr) = false) :
    Returns (getFreeAddress alloc addr) m v m' ↔ v = pageAddr (dirIndex addr) (pageTableIndex addr) ∧ m' = m := by
  have hd := dirIndex_user ha
  have hi := pageTableIndex_lt addr
  have hscan : scan (m.ram (frameOf (m.ram m.cr3 (dirIndex addr)))) (1024 - pageTableIndex addr) =
      some (pageTableIndex addr) := by
    have hn : 1024 - pageTableIndex addr = (1023 - pageTableIndex addr) + 1 := by omega
    have hback : 1023 - (1023 - pageTableIndex addr) = pageTableIndex addr := by omega
    rw [Machine.pte, Machine.pde] at hq
    rw [hn, scan, hback, hq, if_neg Bool.false_ne_true]
  rw [getFreeAddress, scanDirectory_present (d := dirIndex addr) h (by omega) (by omega) hp (by omega), hscan]

theorem getFreeAddress_made (h : Env m) (ha : addr < KERNEL_MEMORY) (hp : present (m.pde addr) = false) :
    Returns (getFreeAddress alloc addr) m v m' ↔
      v = dirIndex addr * 2 ^ 22 ∧ ∃ pt, Returns (addPageTable alloc (dirIndex addr * 2 ^ 22) 3#32) m pt m' := by
  have hd := dirIndex_user ha
  rw [getFreeAddress, scanDirectory_absent (d := dirIndex addr) h (by omega) (by omega) hp]

/-- A frame that was just taken has no use yet. -/
theorem Sound.taken (h : Sound m L T) (hf : ¬ Reaches m f) :
    Sound (m.setCount f 1) (L.use f .unused) T ∧ Local m L (m.setCount f 1) (L.use f .unused) := by
  obtain ⟨h1, l1⟩ := h.use (h.holds.spare_of_unreached hf) .unused
  obtain ⟨h2, l2⟩ := h1.setCount f 1
  exact ⟨h2, l1.trans l2⟩

/-- The page at `a` of the user half gets a frame which was just taken. -/
def Filled (alloc : Kernel Nat) (m : Machine) (L : Layout) (a : Nat) (flags : Word) (m' : Machine) (L' : Layout) : Prop :=
  ∃ f fl m1 L1, Returns alloc m f (m.setCount f 1) ∧ f < 2 ^ 20 ∧ m.bitmap f = 0 ∧ ¬ Reaches m f ∧ Plain fl ∧
    Opened alloc (m.setCount f 1) (L.use f .unused) (dirIndex a) fl m1 L1 ∧ m' = m1.mapped a f flags ∧ L' = L1.use f .data

theorem Filled.sound {L' : Layout} {a : Nat} (hF : Filled alloc m L a flags m' L') (h : Sound m L T)
    (ha : a < KERNEL_MEMORY) (hfl : Plain flags) (hA : ∀ f, Hands alloc (m.setCount f 1)) :
    Sound m' L' T ∧ Local m L m' L' := by
  obtain ⟨f, fl, m1, L1, _, hlt, _, hfresh, hfl1, ho, rfl, rfl⟩ := hF
  obtain ⟨h1, l1⟩ := h.taken hfresh
  have hcount : (m.setCount f 1).bitmap f ≠ 0 := by
    rw [setCount_self]
    decide
  obtain ⟨h2, l2⟩ := ho.mapped h1 ha hfl1 hfl (hA _) hlt (use_role_self ..) hcount
  exact ⟨h2, l1.trans l2⟩

/-- The same, where a page table that is made gets the flags `fl`. -/
def FilledWith (alloc : Kernel Nat) (m : Machine) (L : Layout) (a : Nat) (fl flags : Word) (m' : Machine) (L' : Layout) :
    Prop :=
  ∃ f m1 L1, Returns alloc m f (m.setCount f 1) ∧ f < 2 ^ 20 ∧ m.bitmap f = 0 ∧ ¬ Reaches m f ∧
    Opened alloc (m.setCount f 1) (L.use f .unused) (dirIndex a) fl m1 L1 ∧ m' = m1.mapped a f flags ∧ L' = L1.use f .data

theorem FilledWith.filled {L' : Layout} {a : Nat} {fl : Word} (hF : FilledWith alloc m L a fl flags m' L')
    (hfl : Plain fl) : Filled alloc m L a flags m' L' := by
  obtain ⟨f, m1, L1, hf, hlt, hzero, hfresh, ho, hm, hL⟩ := hF
  exact ⟨f, fl, m1, L1, hf, hlt, hzero, hfresh, hfl, ho, hm, hL⟩

/-- A frame is taken and mapped. -/
theorem take_mapPage_with (h : Sound m L T) (hT : T.card ≤ 8) {a : Nat} (ha : a < KERNEL_MEMORY) (hfl : Plain flags)
    (hA : Hands alloc m) (hA1 : ∀ f, Hands alloc (m.setCount f 1)) {m1 : Machine} (hf : Returns alloc m f m1)
    (hr : Returns (mapPage alloc f a flags) m1 v m') : v = a ∧ ∃ L', FilledWith alloc m L a flags flags m' L' := by
  obtain ⟨hlt, hzero, rfl, hfresh⟩ := hA.take hf
  obtain ⟨h1, _⟩ := h.taken hfresh
  obtain ⟨hv, m2, L2, ho, hm⟩ := mapPage_cases h1 hT ha hfl (hA1 f) hr
  exact ⟨hv, _, f, m2, L2, hf, hlt, hzero, hfresh, ho, hm, rfl⟩

theorem take_mapPage (h : Sound m L T) (hT : T.card ≤ 8) {a : Nat} (ha : a < KERNEL_MEMORY) (hfl : Plain flags)
    (hA : Hands alloc m) (hA1 : ∀ f, Hands alloc (m.setCount f 1)) {m1 : Machine} (hf : Returns alloc m f m1)
    (hr : Returns (mapPage alloc f a flags) m1 v m') : v = a ∧ ∃ L', Filled alloc m L a flags m' L' := by
  obtain ⟨hv, L', hF⟩ := take_mapPage_with h hT ha hfl hA hA1 hf hr
  exact ⟨hv, L', hF.filled hfl⟩

/-- The flags of the page table that a heap fault makes, when it has to. -/
def heapTable (m : Machine) (addr : Nat) : Word := if present (m.pde addr) then PG_USER ||| PG_RW else 3#32

theorem plain_heapTable (m : Machine) (addr : Nat) : Plain (heapTable m addr) := by
  rw [heapTable]
  split
  · exact plain_userRw
  · exact plain_three

/-- The page that a heap fault maps: that of the address, or the first one of a page table that is made. -/
def heapPage (m : Machine) (addr : Nat) : Nat :=
  if present (m.pde addr) then pageAddr (dirIndex addr) (pageTableIndex addr) else dirIndex addr * 2 ^ 22

/-- Where the page table is there, the page of the address itself is mapped. -/
theorem heapPage_own (h : Sound m L T) (hT : T.card ≤ 8) (ha : addr < KERNEL_MEMORY) (hno : walk m.ram m.cr3 addr = none)
    (hA : Hands alloc m) (hA1 : ∀ f, Hands alloc (m.setCount f 1)) (hp : present (m.pde addr) = true)
    (hf : Returns alloc m f (m.setCount f 1)) (hv : Returns (getFreeAddress alloc addr) (m.setCount f 1) v m2)
    (hr : Returns (mapPage alloc f v (PG_USER ||| PG_RW)) m2 a m') : heapPage m addr < KERNEL_MEMORY ∧
      dirIndex (heapPage m addr) = dirIndex addr ∧
      ¬ HasPage m.ram m.cr3 (dirIndex (heapPage m addr)) (pageTableIndex (heapPage m addr)) ∧
      (∃ L', FilledWith alloc m L (heapPage m addr) (heapTable m addr) (PG_USER ||| PG_RW) m' L') ∧
      heapPage m addr / PAGE_SIZE = addr / PAGE_SIZE := by
  obtain ⟨_, _, _, hfresh⟩ := hA.take hf
  obtain ⟨h1, _⟩ := h.taken hfresh
  have hpde : (m.setCount f 1).pde addr = m.pde addr := rfl
  have hpte : (m.setCount f 1).pte addr = m.pte addr := rfl
  have hq : present (m.pte addr) = false := by
    rw [walk_pte, hp, Bool.true_and] at hno
    by_contra hq
    rw [if_pos (Bool.of_not_eq_false hq)] at hno
    cases hno
  rw [heapPage, heapTable, if_pos hp, if_pos hp]
  obtain ⟨rfl, rfl⟩ := (getFreeAddress_own h1.holds.env ha (hpde ▸ hp) (hpte ▸ hq)).mp hv
  have hd := dirIndex_user ha
  have hi := pageTableIndex_lt addr
  have hbase : pageAddr (dirIndex addr) (pageTableIndex addr) < KERNEL_MEMORY := by
    rw [KERNEL_MEMORY, pageAddr]
    omega
  obtain ⟨_, hF⟩ := take_mapPage_with h hT hbase plain_userRw hA hA1 hf hr
  refine ⟨hbase, dirIndex_page hi, ?_, hF, ?_⟩
  · rw [dirIndex_page hi, pageTableIndex_page hi]
    rintro ⟨_, _, _, hq'⟩
    rw [Machine.pte, Machine.pde, hq'] at hq
    cases hq
  · rw [pageAddr, PAGE_SIZE, dirIndex, pageTableIndex]
    omega

/-- Where there is none, it is made with the flags of the kernel, and its first page is mapped. -/
theorem heapPage_made (h : Sound m L T) (ha : addr < KERNEL_MEMORY) (hA : Hands alloc m)
    (hA1 : ∀ f, Hands alloc (m.setCount f 1)) (hp : present (m.pde addr) = false)
    (hf : Returns alloc m f (m.setCount f 1)) (hv : Returns (getFreeAddress alloc addr) (m.setCount f 1) v m2)
    (hr : Returns (mapPage alloc f v (PG_USER ||| PG_RW)) m2 a m') : heapPage m addr < KERNEL_MEMORY ∧
      dirIndex (heapPage m addr) = dirIndex addr ∧
      ¬ HasPage m.ram m.cr3 (dirIndex (heapPage m addr)) (pageTableIndex (heapPage m addr)) ∧
      (∃ L', FilledWith alloc m L (heapPage m addr) (heapTable m addr) (PG_USER ||| PG_RW) m' L') ∧
      user (m'.ram m.cr3 (dirIndex addr)) = false := by
  obtain ⟨hlt, hzero, _, hfresh⟩ := hA.take hf
  obtain ⟨h1, _⟩ := h.taken hfresh
  have hpde : (m.setCount f 1).pde addr = m.pde addr := rfl
  have hd := dirIndex_user ha
  rw [heapPage, heapTable, hp, if_neg Bool.false_ne_true, if_neg Bool.false_ne_true]
  obtain ⟨rfl, pt, hpt⟩ := (getFreeAddress_made h1.holds.env ha (hpde ▸ hp)).mp hv
  have hbase : dirIndex addr * 2 ^ 22 < KERNEL_MEMORY := by
    rw [KERNEL_MEMORY]
    omega
  have hdi : dirIndex (dirIndex addr * 2 ^ 22) = dirIndex addr := Nat.mul_div_cancel _ (by decide)
  have hpb : present ((m.setCount f 1).pde (dirIndex addr * 2 ^ 22)) = false := by
    rw [Machine.pde, hdi]
    exact hp
  have hnew : ∀ t m3, Returns alloc (m.setCount f 1) t m3 →
      t < 2 ^ 20 ∧ t ≠ (m.setCount f 1).cr3 ∧ m3 = (m.setCount f 1).setCount t 1 := by
    intro t m3 ht
    obtain ⟨h2, _, h3, h4⟩ := (hA1 f).take ht
    exact ⟨h2, fun he => h4 (he ▸ h1.holds.reaches_cr3), h3⟩
  obtain ⟨t, ht, _, rfl⟩ :=
    (addPageTable_ok h1.holds.env (user_lt hbase) hpb plain_three.lt hnew).mp hpt
  obtain ⟨htlt, _, _, htfresh⟩ := (hA1 f).take ht
  have ho : Opened alloc (m.setCount f 1) (L.use f .unused) (dirIndex (dirIndex addr * 2 ^ 22)) 3#32
      ((m.setCount f 1).addTable (dirIndex (dirIndex addr * 2 ^ 22)) t 3#32)
      ((L.use f .unused).use t (.table (dirIndex (dirIndex addr * 2 ^ 22)))) := .made t hpb ht htlt htfresh
  have hd' := dirIndex_user hbase
  obtain ⟨h2, l2⟩ := ho.sound h1 hd' plain_three
  obtain ⟨hp2, hs2⟩ := ho.private_ h1 hd' plain_three
  rw [← l2.same.cr3] at hp2 hs2
  obtain ⟨_, hm⟩ := (mapPage_ok h2.holds.env (user_lt hbase) hp2 hs2).mp hr
  refine ⟨hbase, hdi, ?_, ⟨_, f, _, _, hf, hlt, hzero, hfresh, ho, hm, rfl⟩, ?_⟩
  · rw [hdi]
    rintro ⟨_, _, hp', _⟩
    rw [Machine.pde, hp'] at hp
    cases hp
  · -- the page table has flags of the kernel
    have htc : t ≠ (m.setCount f 1).cr3 := fun he => htfresh (he ▸ h1.holds.reaches_cr3)
    have hself : ((m.setCount f 1).addTable (dirIndex addr) t 3#32).ram m.cr3 (dirIndex addr) = mkEntry t (3#32 ||| 3#32) := by
      rw [addTable_eq htc]
      exact setWord_self ..
    have hT : frameOf (((m.setCount f 1).addTable (dirIndex addr) t 3#32).pde (dirIndex addr * 2 ^ 22)) = t := by
      rw [Machine.pde, hdi]
      show frameOf (((m.setCount f 1).addTable (dirIndex addr) t 3#32).ram m.cr3 (dirIndex addr)) = t
      rw [hself, frameOf_mkEntry htlt (by decide)]
    rw [hm, hdi, setWord_of_ne _ _ _ _ (Or.inl (hT.symm ▸ htc.symm)), hself, user_mkEntry]
    decide

/-- **A heap page that is not there yet.** -/
theorem pfNonPresent_filled (h : Sound m L T) (hT : T.card ≤ 8) (ha : addr < KERNEL_MEMORY)
    (hno : walk m.ram m.cr3 addr = none) (hA : Hands alloc m) (hA1 : ∀ f, Hands alloc (m.setCount f 1))
    (hr : Returns (pfNonPresent alloc addr) m u m') :
    (m.cur.codeEnd < addr ∧ addr ≤ m.cur.brk) ∧ heapPage m addr < KERNEL_MEMORY ∧
      dirIndex (heapPage m addr) = dirIndex addr ∧
      ¬ HasPage m.ram m.cr3 (dirIndex (heapPage m addr)) (pageTableIndex (heapPage m addr)) ∧
      (∃ L', FilledWith alloc m L (heapPage m addr) (heapTable m addr) (PG_USER ||| PG_RW) m' L') ∧
      (present (m.pde addr) = true → heapPage m addr / PAGE_SIZE = addr / PAGE_SIZE) ∧
      (present (m.pde addr) = false → user (m'.ram m.cr3 (dirIndex addr)) = false) := by
  rw [pfNonPresent, Returns.bind_iff ((gets_ok _).mpr ⟨rfl, rfl⟩)] at hr
  by_cases hc : addr > m.cur.codeEnd ∧ addr ≤ m.cur.brk
  swap
  · rw [if_neg hc] at hr
    exact absurd hr (stop_ok _)
  refine ⟨hc, ?_⟩
  rw [if_pos hc] at hr
  obtain ⟨a, m2, hr, hu⟩ := (bind_ok _ _ _).mp hr
  obtain ⟨_, rfl⟩ := pure_ok.mp hu
  obtain ⟨f, m1, hf, hr⟩ := (bind_ok _ _ _).mp hr
  obtain ⟨_, _, rfl, _⟩ := hA.take hf
  obtain ⟨v, m2, hv, hr⟩ := (bind_ok _ _ _).mp hr
  cases hp : present (m.pde addr) with
  | true =>
    obtain ⟨h1, h2, h3, h4, h5⟩ := heapPage_own h hT ha hno hA hA1 hp hf hv hr
    exact ⟨h1, h2, h3, h4, fun _ => h5, fun hno => by cases hno⟩
  | false =>
    obtain ⟨h1, h2, h3, h4, h5⟩ := heapPage_made h ha hA hA1 hp hf hv hr
    exact ⟨h1, h2, h3, h4, (fun hyes => by cases hyes), fun _ => h5⟩

theorem pfNonPresent_cases (h : Sound m L T) (hT : T.card ≤ 8) (ha : addr < KERNEL_MEMORY)
    (hno : walk m.ram m.cr3 addr = none) (hA : Hands alloc m) (hA1 : ∀ f, Hands alloc (m.setCount f 1))
    (hr : Returns (pfNonPresent alloc addr) m u m') :
    (m.cur.codeEnd < addr ∧ addr ≤ m.cur.brk) ∧
      ∃ a L', a < KERNEL_MEMORY ∧ dirIndex a = dirIndex addr ∧
        ¬ HasPage m.ram m.cr3 (dirIndex a) (pageTableIndex a) ∧ Filled alloc m L a (PG_USER ||| PG_RW) m' L' ∧
        (present (m.pde addr) = true → a / PAGE_SIZE = addr / PAGE_SIZE) ∧
        (present (m.pde addr) = false → user (m'.ram m.cr3 (dirIndex addr)) = false) := by
  obtain ⟨hheap, hlt, hdir, hpage, ⟨L', hF⟩, hsame, hkernel⟩ := pfNonPresent_filled h hT ha hno hA hA1 hr
  exact ⟨hheap, _, L', hlt, hdir, hpage, hF.filled (plain_heapTable m addr), hsame, hkernel⟩

end Missing

/-! ## Protected pages -/

/-- `enable_CoW` as a change of the machine. -/
def Machine.protect (m : Machine) (f : Nat) : Machine :=
  m.setFrame f (filled 1024 (fun i => cowPage (m.ram f i)) (m.ram f))

/-- How `pf_ro_violation` makes the page table its own: with all its pages protected when it was shared. -/
inductive Split (alloc : Kernel Nat) (m : Machine) (L : Layout) (d : Nat) : Machine → Layout → Prop
  | own (hc : cowDir (m.ram m.cr3 d) = false) : Split alloc m L d m L
  | copied (K k new : Nat) (m1 : Machine) (hc : cowDir (m.ram m.cr3 d) = true) (hK : L.ktab = some K)
      (hk : scan (m.ram K) 1024 = some k)
      (hnew : Returns alloc (m.setWord K k (mkEntry (frameOf (m.ram m.cr3 d)) 7#32)) new m1) (hlt : new < 2 ^ 20)
      (hzero : m.bitmap new = 0) (hfresh : ¬ Reaches m new) :
      Split alloc m L d ((m.unshared K k (window d) new 6#32).protect new) (L.use new (.table d))

section Protected

variable {alloc : Kernel Nat} {m m' m1 : Machine} {L L1 : Layout} {T : Finset Nat} {addr d n : Nat} {u : Unit}

theorem setWord_same {f i : Nat} {w : Word} (h : m.ram f i = w) : m.setWord f i w = m := by
  simp [Machine.setWord, ← h]

theorem Split.sound (ho : Split alloc m L d m1 L1) (h : Sound m L T) (hd : d < 768)
    (hp : present (m.ram m.cr3 d) = true) : Sound m1 L1 T ∧ Local m L m1 L1 := by
  cases ho with
  | own hc => exact ⟨h, Local.refl m L⟩
  | copied K k new m1 hc hK hk hnew hlt hzero hfresh =>
    obtain ⟨h1, l1⟩ := h.unsharedTable hK hk hd hp (e := 6#32) hlt hfresh
    have hpde := @unshared_pde _ m L K k d new 6#32 h.holds hK hd hp ((Spot.window h.holds hd hp).apart h.holds hfresh)
    have hf : frameOf (mkEntry new 7#32) = new := frameOf_mkEntry hlt (by decide)
    rw [← l1.same.cr3] at hpde
    have hktab : (L.use new (.table d)).ktab ≠ none := by
      show L.ktab ≠ none
      rw [hK]
      simp
    have hre := h1.retable hd (g := filled 1024 (fun i => cowPage ((m.unshared K k (window d) new 6#32).ram new i))
      ((m.unshared K k (window d) new 6#32).ram new)) (by rw [hpde]; simp) (by rw [hpde]; simp) ?_ (by rw [hpde]; simp) hktab
    · rw [hpde, hf] at hre
      exact ⟨hre.1, l1.trans hre.2⟩
    · intro i hi
      rw [hpde, hf, filled_lt hi]
      simp

/-- Afterwards the page is there, under a private table. -/
theorem Split.page (ho : Split alloc m L d m1 L1) (h : Sound m L T) {i : Nat} (hpage : HasPage m.ram m.cr3 d i) :
    HasPage m1.ram m.cr3 d i ∧ shared (m1.ram m.cr3 d) = false ∧
      pageOf m1.ram m.cr3 d i = pageOf m.ram m.cr3 d i := by
  obtain ⟨hd, hi, hp, hq⟩ := hpage
  cases ho with
  | own hc =>
    refine ⟨⟨hd, hi, hp, hq⟩, ?_, rfl⟩
    rw [← h.holds.curSpace.cow rfl d hd]
    exact hc
  | copied K k new m1 hc hK hk hnew hlt hzero hfresh =>
    have hpde := @unshared_pde _ m L K k d new 6#32 h.holds hK hd hp ((Spot.window h.holds hd hp).apart h.holds hfresh)
    have hf : frameOf (mkEntry new 7#32) = new := frameOf_mkEntry hlt (by decide)
    have hnc : m.cr3 ≠ new := fun he => hfresh (he ▸ h.holds.reaches_cr3)
    have hnew1 : ((m.unshared K k (window d) new 6#32).protect new).ram m.cr3 d = mkEntry new 7#32 := by
      rw [Machine.protect, setFrame_of_ne _ _ _ hnc, hpde]
    have hword : ((m.unshared K k (window d) new 6#32).protect new).ram new i =
        cowPage (m.ram (frameOf (m.ram m.cr3 d)) i) := by
      have hx := Spot.window h.holds hd hp
      have hpte : m.pte (window d) = m.ram m.cr3 d := h.holds.env.pte_window (by omega)
      have hnK : new ≠ K := fun he => hfresh (he ▸ h.holds.reaches_ktab hK)
      have hnT : new ≠ frameOf (m.pde (window d)) := fun he => hfresh (he ▸ hx.reached.1)
      rw [Machine.protect, setFrame_self, filled_lt hi, Machine.unshared, setWord_of_ne _ _ _ _ (Or.inl hnK), drop_ram,
        setFrame_self, filled_lt hi, hpte]
    rw [HasPage, pageOf, pageOf, hnew1, hf, hword]
    exact ⟨⟨hd, hi, by simp, by simpa using hq⟩, by simp, by simp⟩

theorem coWEnabled_ok (h : Env m) (ha : addr < 2 ^ 32) (hp : present (m.pde addr) = true) {b : Bool} :
    Returns (coWEnabled addr) m b m' ↔ b = (cowDir (m.pde addr) || shared (m.pte addr)) ∧ m' = m := by
  have hdir : Returns (dirEntry (dirIndex addr)) m (m.pde addr) m := (dirEntry_ok h (dirIndex_lt ha)).mpr ⟨rfl, rfl⟩
  have hentry := (@getPageEntry_ok m m h addr ha _).mpr ⟨rfl, rfl⟩
  rw [if_pos hp] at hentry
  rw [coWEnabled, Returns.bind_iff hdir]
  cases cowDir (m.pde addr) with
  | true => rw [if_pos rfl, pure_ok, Bool.true_or]
  | false =>
    rw [if_neg Bool.false_ne_true, Returns.bind_iff hentry, Returns.bind_iff ((loadEntry_ok h ha hp).mpr ⟨rfl, rfl⟩),
      pure_ok, Bool.false_or]

/-- The guards of `pf_ro_violation`, and what is left of it. -/
theorem pfRoViolation_guard (h : Env m) (ha : addr < 2 ^ 32) (hp : present (m.pde addr) = true) :
    Returns (pfRoViolation alloc addr) m u m' ↔
    m.cur.codeEnd < addr ∧ (cowDir (m.pde addr) || shared (m.pte addr)) = true ∧
      Returns (do
        onlyIf (cowDir (m.pde addr)) (do
          copyPageTable alloc stackDepth (getPageTable addr)
          enableCoW (getPageTable addr)
          let pde ← dirEntry (dirIndex addr)
          setDirEntry (dirIndex addr) (pde ||| 2#32)
          let pde ← dirEntry (dirIndex addr)
          setDirEntry (dirIndex addr) (pde &&& ~~~0x400#32))
        unshare alloc (copyPageTable alloc stackDepth) addr (PG_KERN ||| PG_RW)) m u m' := by
  have hdir : Returns (dirEntry (dirIndex addr)) m (m.pde addr) m := (dirEntry_ok h (dirIndex_lt ha)).mpr ⟨rfl, rfl⟩
  rw [pfRoViolation, Returns.bind_iff ((gets_ok _).mpr ⟨rfl, rfl⟩), check_bind_ok, decide_eq_false_iff_not, not_le,
    Returns.bind_iff ((coWEnabled_ok h ha hp).mpr ⟨rfl, rfl⟩), check_bind_ok, Bool.not_eq_false', Returns.bind_iff hdir]
  exact Iff.rfl

/-- `enable_CoW` on the copy of a page table, and two assignments that change nothing. -/
theorem protectTable_ok {K k new : Nat} (h : Sound m L T) (hd : d < 768) (hp : present (m.ram m.cr3 d) = true)
    (hc : cowDir (m.ram m.cr3 d) = true) (hK : L.ktab = some K) (hk : scan (m.ram K) 1024 = some k) (hlt : new < 2 ^ 20)
    (hfresh : ¬ Reaches m new) {m3 : Machine} {m2 : Machine}
    (hnew : Returns alloc (m.setWord K k (mkEntry (frameOf (m.ram m.cr3 d)) 7#32)) new m2) (hzero : m.bitmap new = 0) :
    Returns (do
      enableCoW (window d)
      let pde ← dirEntry d
      setDirEntry d (pde ||| 2#32)
      let pde ← dirEntry d
      setDirEntry d (pde &&& ~~~0x400#32)) (m.unshared K k (window d) new 6#32) u m3 ↔
      m3 = (m.unshared K k (window d) new 6#32).protect new := by
  have ho : Split alloc m L d ((m.unshared K k (window d) new 6#32).protect new) (L.use new (.table d)) :=
    .copied K k new m2 hc hK hk hnew hlt hzero hfresh
  obtain ⟨h1, l1⟩ := h.unsharedTable hK hk hd hp (e := 6#32) hlt hfresh
  obtain ⟨h2, l2⟩ := ho.sound h hd hp
  have hpde := @unshared_pde _ m L K k d new 6#32 h.holds hK hd hp ((Spot.window h.holds hd hp).apart h.holds hfresh)
  have hf : frameOf (mkEntry new 7#32) = new := frameOf_mkEntry hlt (by decide)
  have hnc : new ≠ m.cr3 := fun he => hfresh (he ▸ h.holds.reaches_cr3)
  have hwalk := h1.holds.env.walk_window' (d := d) (by omega)
  rw [l1.same.cr3, hpde, if_pos (by simp), hf, ← l1.same.cr3] at hwalk
  have hpath : ¬ OnPath (m.unshared K k (window d) new 6#32) (window d) new := by
    rw [OnPath, Machine.pde, dirIndex_window' (by omega), h1.holds.env.self_frame, l1.same.cr3]
    simpa using hnc
  have hcowr := (@enableCoW_ok _ _ _ _ () (window_aligned _) hwalk hpath).mpr rfl
  have hword : ((m.unshared K k (window d) new 6#32).protect new).ram m.cr3 d = mkEntry new 7#32 := by
    rw [Machine.protect, setFrame_of_ne _ _ _ hnc.symm, hpde]
  have hdir2 := (@dirEntry_ok _ _ h2.holds.env _ (show d < 1024 by omega) _).mpr ⟨rfl, rfl⟩
  rw [l2.same.cr3, hword] at hdir2
  have hor : mkEntry new 7#32 ||| 2#32 = mkEntry new 7#32 := mkEntry_or ..
  have hset : ∀ {u}, Returns (setDirEntry d (mkEntry new 7#32)) ((m.unshared K k (window d) new 6#32).protect new) u m3 ↔
      m3 = (m.unshared K k (window d) new 6#32).protect new := by
    intro u
    rw [setDirEntry_ok h2.holds.env (by omega), l2.same.cr3, setWord_same hword]
  have hset' := (@setDirEntry_ok _ _ h2.holds.env _ (show d < 1024 by omega) (mkEntry new 7#32) ()).mpr rfl
  rw [l2.same.cr3, setWord_same hword] at hset'
  have hclear : mkEntry new 7#32 &&& ~~~0x400#32 = mkEntry new 7#32 := by
    have hflags := mkEntry_seven_flags new
    rwa [hor] at hflags
  rw [Returns.bind_iff hcowr, show (m.unshared K k (window d) new 6#32).setFrame new _ =
      (m.unshared K k (window d) new 6#32).protect new from rfl, Returns.bind_iff hdir2, hor,
    Returns.bind_iff hset', Returns.bind_iff hdir2, hclear]
  exact hset

/-- After the first stage the page is there, and the kernel has a slot for the second. -/
theorem Split.room (ho : Split alloc m L d m1 L1) (h : Sound m L T) (hT : T.card ≤ 8) {i : Nat} (hpage : HasPage m.ram m.cr3 d i)
    (hcow : (cowDir (m.ram m.cr3 d) || shared (m.ram (frameOf (m.ram m.cr3 d)) i)) = true) :
    ∃ K k, L1.ktab = some K ∧ scan (m1.ram K) 1024 = some k := by
  obtain ⟨h1, l1⟩ := ho.sound h hpage.1 hpage.2.2.1
  have hK : ∃ K, L1.ktab = some K := by
    cases hK : L1.ktab with
    | some K => exact ⟨K, rfl⟩
    | none =>
      cases ho with
      | own hc =>
        have hpte := h.tidy.plain hK _ _ hpage
        rw [hc, Bool.false_or, hpte] at hcow
        cases hcow
      | copied K k new m1 hc hK' => exact absurd (hK'.symm.trans hK) (by simp)
  obtain ⟨K, hK⟩ := hK
  obtain ⟨k, hk⟩ := h1.tidy.room h1.holds hK hT
  exact ⟨K, k, hK, hk⟩

/-- **A write to a protected page.** -/
theorem pfRoViolation_cases (h : Sound m L T) (hT : T.card ≤ 8) (ha : addr < KERNEL_MEMORY)
    (hpage : HasPage m.ram m.cr3 (dirIndex addr) (pageTableIndex addr)) (hA : Hands alloc m)
    (hA1 : ∀ m1 L1, Split alloc m L (dirIndex addr) m1 L1 → Hands alloc m1)
    (hr : Returns (pfRoViolation alloc addr) m u m') :
    m.cur.codeEnd < addr ∧ (cowDir (m.pde addr) || shared (m.pte addr)) = true ∧
      ∃ m1 L1 K k new m2, Split alloc m L (dirIndex addr) m1 L1 ∧ L1.ktab = some K ∧ scan (m1.ram K) 1024 = some k ∧
        Returns alloc (m1.setWord K k (mkEntry (frameOf (m1.pte addr)) 3#32)) new m2 ∧ new < 2 ^ 20 ∧
        m1.bitmap new = 0 ∧ ¬ Reaches m1 new ∧ m' = m1.unshared K k addr new 2#32 := by
  have hlt := user_lt ha
  have hd := dirIndex_user ha
  have hp : present (m.pde addr) = true := hpage.2.2.1
  obtain ⟨hcode, hcow, hr⟩ := (pfRoViolation_guard h.holds.env hlt hp).mp hr
  refine ⟨hcode, hcow, ?_⟩
  have hend : ∀ m1 L1, Split alloc m L (dirIndex addr) m1 L1 →
      Returns (unshare alloc (copyPageTable alloc stackDepth) addr (PG_KERN ||| PG_RW)) m1 u m' →
      ∃ m1 L1 K k new m2, Split alloc m L (dirIndex addr) m1 L1 ∧ L1.ktab = some K ∧ scan (m1.ram K) 1024 = some k ∧
        Returns alloc (m1.setWord K k (mkEntry (frameOf (m1.pte addr)) 3#32)) new m2 ∧ new < 2 ^ 20 ∧
        m1.bitmap new = 0 ∧ ¬ Reaches m1 new ∧ m' = m1.unshared K k addr new 2#32 := by
    intro m1 L1 ho hr
    obtain ⟨h1, l1⟩ := ho.sound h hd hp
    obtain ⟨hpage1, hs1, _⟩ := ho.page h hpage
    rw [← l1.same.cr3] at hpage1 hs1
    obtain ⟨K, k, hK, hk⟩ := ho.room h hT hpage hcow
    rw [unshare_ok h1.holds hK hk (Spot.page h1.holds hlt hpage1 hs1) (by decide) (hA1 _ _ ho)] at hr
    obtain ⟨new, m2, hnew, hnlt, hzero, hfresh, hm⟩ := hr
    exact ⟨m1, L1, K, k, new, m2, ho, hK, hk, hnew, hnlt, hzero, hfresh, hm⟩
  cases hc : cowDir (m.pde addr) with
  | false =>
    rw [hc, onlyIf_neg rfl, Returns.bind_iff (pure_ok.mpr ⟨rfl, rfl⟩)] at hr
    exact hend m L (.own hc) hr
  | true =>
    rw [hc, onlyIf_pos rfl, getPageTable_eq (dirIndex_lt hlt).le] at hr
    obtain ⟨_, m3, hblock, hr⟩ := (bind_ok _ _ _).mp hr
    obtain ⟨_, m1, hcopy, hblock⟩ := (bind_ok _ _ _).mp hblock
    have hs : shared (m.ram m.cr3 (dirIndex addr)) = true := by
      rw [← h.holds.curSpace.cow rfl _ hd]
      exact hc
    obtain ⟨K, k, new, m2, hK, hk, hnew, hnlt, hzero, hfresh, rfl⟩ := copyPageTable_cases h hT hd hp hs hA hcopy
    rw [protectTable_ok h hd hp hc hK hk hnlt hfresh hnew hzero] at hblock
    rw [hblock] at hr
    exact hend _ _ (.copied K k new m2 hc hK hk hnew hnlt hzero hfresh) hr

/-- The present directory entries of the kernel half. -/
theorem DirOk.high (h : DirOk m.ram L m.cr3) (hd : 768 ≤ d) (hlt : d < 1024) (hp : present (m.ram m.cr3 d) = true) :
    d = 768 ∨ (d = 769 ∧ ∃ K, L.ktab = some K ∧ frameOf (m.ram m.cr3 d) = K) ∨ d = 1023 := by
  by_cases h768 : d = 768
  · exact Or.inl h768
  by_cases h1023 : d = 1023
  · exact Or.inr (Or.inr h1023)
  by_cases h769 : d = 769
  · subst h769
    right; left
    cases hK : L.ktab with
    | none =>
      rw [h.no_ktab hK] at hp
      cases hp
    | some K => exact ⟨rfl, K, rfl, (h.ktab K hK).2.1⟩
  · rw [h.rest d (by omega) (by omega)] at hp
    cases hp

/-- No entry of the kernel half is flagged. -/
theorem DirOk.unshared (h : DirOk m.ram L m.cr3) (hd : 768 ≤ d) (hlt : d < 1024) (hp : present (m.ram m.cr3 d) = true) :
    shared (m.ram m.cr3 d) = false := by
  rcases h.high hd hlt hp with rfl | ⟨rfl, K, hK, _⟩ | rfl
  · exact h.low_private
  · exact (h.ktab K hK).2.2
  · exact h.self_private

/-- **A protected address of the kernel half** is in the window page of a shared table, which is copied. -/
theorem pfRoViolation_window (h : Sound m L T) (hT : T.card ≤ 8) (ha : KERNEL_MEMORY ≤ addr) (hlt : addr < 2 ^ 32)
    (hp : present (m.pde addr) = true) (hq : present (m.pte addr) = true) (hA : Hands alloc m)
    (hr : Returns (pfRoViolation alloc addr) m u m') :
    ∃ d K k new m1, d = pageTableIndex addr ∧ d < 768 ∧ present (m.ram m.cr3 d) = true ∧ shared (m.ram m.cr3 d) = true ∧
      L.ktab = some K ∧ scan (m.ram K) 1024 = some k ∧
      Returns alloc (m.setWord K k (mkEntry (frameOf (m.ram m.cr3 d)) 3#32)) new m1 ∧ new < 2 ^ 20 ∧
      m.bitmap new = 0 ∧ ¬ Reaches m new ∧ m' = m.unshared K k (window d) new 2#32 := by
  have hD := h.holds.curDir
  have hdlt := dirIndex_lt hlt
  have hilt := pageTableIndex_lt addr
  have hhigh : 768 ≤ dirIndex addr := by
    rw [KERNEL_MEMORY] at ha
    rw [dirIndex]
    omega
  obtain ⟨_, hcow, hr⟩ := (pfRoViolation_guard h.holds.env hlt hp).mp hr
  have huncow : cowDir (m.pde addr) = false := hD.uncow _ hhigh hdlt hp
  rw [huncow, Bool.false_or] at hcow
  rw [huncow, onlyIf_neg rfl, Returns.bind_iff (pure_ok.mpr ⟨rfl, rfl⟩)] at hr
  have hpde : m.pde addr = m.ram m.cr3 (dirIndex addr) := rfl
  have hpte : m.pte addr = m.ram (frameOf (m.ram m.cr3 (dirIndex addr))) (pageTableIndex addr) := rfl
  rcases hD.high hhigh hdlt hp with hd | ⟨hd, K, hK, hf⟩ | hd
  · rw [hpte, hd, hD.low_frame, h.tidy.low _ hilt] at hcow
    cases hcow
  · rw [hpte, hf] at hcow hq
    rw [(h.tidy.slot K _ hK hilt hq).1] at hcow
    cases hcow
  · rw [hpte, hd, hD.self_frame] at hcow hq
    have huser : pageTableIndex addr < 768 := by
      by_contra hge
      rw [hD.unshared (not_lt.mp hge) hilt hq] at hcow
      cases hcow
    obtain ⟨K, k, hK, hk⟩ := (h.slack hT).room h huser hcow
    have hwin := Spot.window h.holds huser hq
    have hpdew : m.pde (window (pageTableIndex addr)) = m.pde addr := by
      rw [hpde, hd, Machine.pde, dirIndex_window' (by omega)]
    have hptew : m.pte (window (pageTableIndex addr)) = m.pte addr := by
      rw [h.holds.env.pte_window hilt, hpte, hd, hD.self_frame]
    have hidx : pageTableIndex (window (pageTableIndex addr)) = pageTableIndex addr :=
      @pageTableIndex_window _ 0 hilt (by decide)
    have hx : Spot m L addr := by
      refine ⟨hlt, ?_, ?_, ?_, ?_, ?_, ?_, ?_, ?_⟩
      · exact hp
      · exact hpdew ▸ hwin.private_
      · exact hptew ▸ hwin.here
      · exact hpdew ▸ hwin.ne_low
      · exact hpdew ▸ hptew ▸ hwin.ne_ktab
      · exact hpdew ▸ hptew ▸ hwin.ne_own
      · exact fun _ => ⟨hd, huser⟩
      · exact hpdew ▸ hptew ▸ hwin.reached
    rw [unshare_ok h.holds hK hk hx (by decide) hA, hpte, hd, hD.self_frame] at hr
    obtain ⟨new, m1, hnew, hnlt, hzero, hfresh, hm⟩ := hr
    refine ⟨_, K, k, new, m1, rfl, huser, hq, hcow, hK, hk, hnew, hnlt, hzero, hfresh, ?_⟩
    rw [hm, Machine.unshared, Machine.unshared, hpdew, hptew, hidx]
    rfl

/-- No page above the heap is mapped, and the first page of the kernel is there. -/
theorem pfNonPresent_below (h : Sound m L T) (hbrk : m.cur.brk ≤ KERNEL_MEMORY) (hw : walk m.ram m.cr3 addr = none)
    (hr : Returns (pfNonPresent alloc addr) m u m') : addr < KERNEL_MEMORY := by
  have hle : addr ≤ KERNEL_MEMORY := by
    by_contra hgt
    rw [pfNonPresent, Returns.bind_iff ((gets_ok _).mpr ⟨rfl, rfl⟩), if_neg (by omega)] at hr
    exact absurd hr (stop_ok _)
  rcases Nat.lt_or_eq_of_le hle with ha | rfl
  · exact ha
  · have hD := h.holds.curDir
    have hi : pageTableIndex KERNEL_MEMORY = 0 := rfl
    have hd : dirIndex KERNEL_MEMORY = 768 := rfl
    rw [walk_pte, Machine.pte, Machine.pde, hd, hD.low, hD.low_frame, hi, (h.holds.low 0 (by decide)).1, Bool.and_self,
      if_pos rfl] at hw
    cases hw

end Protected

/-! ## All faults -/

section Faults

variable {alloc : Kernel Nat} {addr : Nat} (hA : ∀ m, Hands alloc m)

include hA

/-- The fault handler of a present page. -/
theorem guards_pfRoViolation {m m' : Machine} {L : Layout} {T : Finset Nat} {u : Unit} (h : Sound m L T)
    (hT : T.card ≤ 8) (hlt : addr < 2 ^ 32) (hp : present (m.pde addr) = true) (hq : present (m.pte addr) = true)
    (hr : Returns (pfRoViolation alloc addr) m u m') : ∃ L', Sound m' L' T ∧ Local m L m' L' := by
  by_cases ha : addr < KERNEL_MEMORY
  · have hpage : HasPage m.ram m.cr3 (dirIndex addr) (pageTableIndex addr) :=
      ⟨dirIndex_user ha, pageTableIndex_lt addr, hp, hq⟩
    obtain ⟨_, _, m1, L1, K, k, new, m2, ho, hK, hk, _, hnlt, _, hfresh, rfl⟩ :=
      pfRoViolation_cases h hT ha hpage (hA _) (fun _ _ _ => hA _) hr
    obtain ⟨h1, l1⟩ := ho.sound h hpage.1 hp
    obtain ⟨hpage1, hs1, _⟩ := ho.page h hpage
    rw [← l1.same.cr3] at hpage1 hs1
    obtain ⟨h2, l2⟩ := h1.unsharedPage hK hk hlt hpage1 hs1 (e := 2#32) hnlt hfresh
    exact ⟨_, h2, l1.trans l2⟩
  · obtain ⟨d, K, k, new, m1, _, hd, hpd, _, hK, hk, _, hnlt, _, hfresh, rfl⟩ :=
      pfRoViolation_window h hT (not_lt.mp ha) hlt hp hq (hA _) hr
    obtain ⟨h1, l1⟩ := h.unsharedTable hK hk hd hpd (e := 2#32) hnlt hfresh
    exact ⟨_, h1, l1⟩

/-- **Page faults keep the layout**, when the heap of the task ends below the kernel. -/
theorem pageFault_sound {m m' : Machine} {L : Layout} {T : Finset Nat} {u : Unit} (h : Sound m L T) (hT : T.card ≤ 8)
    (hlt : addr < 2 ^ 32) (hbrk : m.cur.brk ≤ KERNEL_MEMORY)
    (hr : Returns (pageFault alloc addr (walk m.ram m.cr3 addr).isSome) m u m') :
    ∃ L', Sound m' L' T ∧ Local m L m' L' := by
  cases hw : walk m.ram m.cr3 addr with
  | some f =>
    rw [hw, Option.isSome_some, pageFault, if_pos rfl] at hr
    obtain ⟨hp, hq, _⟩ := walk_eq_some.mp hw
    exact guards_pfRoViolation hA h hT hlt hp hq hr
  | none =>
    rw [hw, Option.isSome_none, pageFault, if_neg Bool.false_ne_true] at hr
    have ha := pfNonPresent_below h hbrk hw hr
    obtain ⟨_, a, L', ha', _, _, hF, _⟩ := pfNonPresent_cases h hT ha hw (hA _) (fun _ => hA _) hr
    exact ⟨L', hF.sound h ha' plain_userRw fun _ => hA _⟩

end Faults

end Raampjes.Mm
