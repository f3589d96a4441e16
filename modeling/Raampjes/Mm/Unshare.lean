import Raampjes.Mm.Bounds
import Raampjes.Mm.Slots

/-!
# A frame of one's own

`copy_page_table` and the end of `pf_ro_violation` do the same: the old frame is mapped at a free slot of the kernel's
page table, a new frame takes its place, the contents are copied and the slot is freed. `unshare` is that sequence,
for a page of the user half or for a page table, which is a page of the window.

- `unshare_ok`: the state after it, `Machine.unshared`;
- `copyPageTable_ok`: the copy of a page table;
- `Tidy`, `Tidy.room`: a slot is always free.
-/

namespace Raampjes.Mm

open Progs Sched

variable {s : Bool}

/-- The last steps of `pf_ro_violation`, and all of `copy_page_table`. -/
def unshare (alloc : Kernel Nat) (copy : Nat → Kernel Unit) (addr : Nat) (flags : Word) : Kernel Unit := do
  let old ← pageFrame addr
  let tmp ← enterPageWith alloc copy old KERNEL_MEMORY flags
  onlyIf (tmp = NULL) (stop .panic)
  let newPf ← alloc
  let _ ← mapPageWith alloc copy newPf addr (PG_USER ||| PG_RW)
  copyPage (addr / PAGE_SIZE * PAGE_SIZE) tmp
  freePageWith copy tmp

theorem copyPageTable_succ (alloc : Kernel Nat) (n d : Nat) :
    copyPageTable alloc (n + 1) (window d) =
      unshare alloc (copyPageTable alloc n) (window d) (PG_USER ||| PG_RW) := by
  have hbase : window d / PAGE_SIZE * PAGE_SIZE = window d :=
    Nat.div_mul_cancel (Nat.dvd_of_mod_eq_zero (window_aligned d))
  rw [copyPageTable, unshare, hbase]

/-- The frame `new` in the place of the frame of `addr`, by way of slot `k`. -/
def Machine.unshared (m : Machine) (K k addr new : Nat) (flags : Word) : Machine :=
  let old := frameOf (m.pte addr)
  let tmp := mkEntry old (flags ||| 1#32)
  (((((m.setWord K k tmp).setCount new 1).setWord (frameOf (m.pde addr)) (pageTableIndex addr) (mkEntry new 7#32)).setFrame
    new (filled 1024 (m.ram old) (m.ram new))).drop old).setWord K k (absent tmp)

/-- A page whose frame can be replaced: of the user half with a table of its own, or the window page of a table. -/
structure Spot (m : Machine) (L : Uses s) (addr : Nat) : Prop where
  lt : addr < 2 ^ 32
  table : present (m.pde addr) = true
  private_ : shared (m.pde addr) = false
  here : present (m.pte addr) = true
  ne_low : frameOf (m.pde addr) ≠ L.pt1
  ne_ktab : ∀ K, L.ktab = some K → frameOf (m.pde addr) ≠ K ∧ frameOf (m.pte addr) ≠ K
  ne_own : frameOf (m.pte addr) ≠ frameOf (m.pde addr)
  dir : frameOf (m.pde addr) = m.cr3 → dirIndex addr = 1023 ∧ pageTableIndex addr < 768
  reached : Reaches m (frameOf (m.pde addr)) ∧ Reaches m (frameOf (m.pte addr))

/-- The frame `new` is none of those that a copy goes through. -/
structure Apart (m : Machine) (L : Uses s) (addr new : Nat) : Prop where
  low : new ≠ L.pt1
  ktab : ∀ K, L.ktab = some K → new ≠ K
  cr3 : new ≠ m.cr3
  table : new ≠ frameOf (m.pde addr)
  old : new ≠ frameOf (m.pte addr)

section Env

variable {m : Machine} {L : Uses s}

theorem Env.setWord (h : Env m) {f i : Nat} {w : Word} (hself : f ≠ m.cr3 ∨ i ≠ 1023)
    (hdir : f ≠ m.cr3 ∨ i ≠ dirIndex m.cur.pageDirectory)
    (htab : f ≠ frameOf (m.pde m.cur.pageDirectory) ∨ i ≠ pageTableIndex m.cur.pageDirectory) :
    Env (m.setWord f i w) := by
  have h1 : (m.setWord f i w).ram m.cr3 1023 = m.ram m.cr3 1023 :=
    setWord_of_ne _ _ _ _ (hself.imp Ne.symm Ne.symm)
  refine ⟨?_, ?_, h.aligned, ?_⟩
  · rw [setWord_cr3, h1]
    exact h.self
  · rw [setWord_cr3, h1]
    exact h.self_frame
  · rw [setWord_cr3, setWord_cur, walk_congr, h.dir]
    · exact setWord_of_ne _ _ _ _ (hdir.imp Ne.symm Ne.symm)
    · exact setWord_of_ne _ _ _ _ (htab.imp Ne.symm Ne.symm)

theorem Env.setFrame (h : Env m) {f : Nat} (hcr3 : f ≠ m.cr3) (htab : f ≠ frameOf (m.pde m.cur.pageDirectory))
    (g : Nat → Word) : Env (m.setFrame f g) := by
  have h1 : (m.setFrame f g).ram m.cr3 = m.ram m.cr3 := setFrame_of_ne _ _ _ hcr3.symm
  refine ⟨?_, ?_, h.aligned, ?_⟩
  · rw [setFrame_cr3, h1]
    exact h.self
  · rw [setFrame_cr3, h1]
    exact h.self_frame
  · rw [setFrame_cr3, setFrame_cur, walk_setFrame, h.dir]
    rw [OnPath, not_or]
    exact ⟨hcr3, htab⟩

/-- The page directory of the running task is reached through the kernel half. -/
theorem Holds.dir_path (h : Holds m L) :
    (dirIndex m.cur.pageDirectory = 768 ∧ frameOf (m.pde m.cur.pageDirectory) = L.pt1) ∨
    (dirIndex m.cur.pageDirectory = 769 ∧ L.ktab = some (frameOf (m.pde m.cur.pageDirectory))) := by
  by_cases hp : m.current = 0
  · obtain ⟨haddr, hlt, _⟩ := h.curOk.boot hp
    have hd : dirIndex m.cur.pageDirectory = 768 := by
      rw [haddr, dirIndex, KERNEL_MEMORY, PAGE_SIZE]
      omega
    left
    rw [Machine.pde, hd]
    exact ⟨rfl, h.curDir.low_frame⟩
  · obtain ⟨K, _, b, hK, _, hb, _, _, _, _, haddr, _⟩ := h.curOk.slots hp
    have hd : dirIndex m.cur.pageDirectory = 769 := by
      rw [haddr]
      exact @dirIndex_slot b 0 hb (by decide)
    right
    rw [Machine.pde, hd, (h.curDir.ktab K hK).2.1]
    exact ⟨rfl, hK⟩

theorem Holds.reaches_cr3 (h : Holds m L) : Reaches m m.cr3 := by
  rw [h.cr3]
  exact h.reaches_dir h.curTask

/-- A frame that nothing reaches can take the place of another. -/
theorem Spot.apart {addr new : Nat} (hx : Spot m L addr) (h : Holds m L) (hnew : ¬ Reaches m new) : Apart m L addr new :=
  ⟨fun he => hnew (he ▸ h.reaches_low), fun _ hK he => hnew (he ▸ h.reaches_ktab hK), fun he => hnew (he ▸ h.reaches_cr3),
    fun he => hnew (he ▸ hx.reached.1), fun he => hnew (he ▸ hx.reached.2)⟩

theorem Apart.dir_path {addr new : Nat} (ha : Apart m L addr new) (h : Holds m L) :
    new ≠ frameOf (m.pde m.cur.pageDirectory) := by
  rcases h.dir_path with ⟨_, hf⟩ | ⟨_, hK⟩
  · rw [hf]
    exact ha.low
  · exact ha.ktab _ hK

end Env

section Unshare

variable {alloc : Kernel Nat} {copy : Nat → Kernel Unit} {m m' : Machine} {L : Uses s} {K k addr : Nat} {flags : Word}
  {u : Unit}

theorem wordIndex_base (addr : Nat) : addr / PAGE_SIZE * PAGE_SIZE % PAGE_SIZE = 0 := Nat.mul_mod_left ..

theorem dirIndex_base (addr : Nat) : dirIndex (addr / PAGE_SIZE * PAGE_SIZE) = dirIndex addr := by
  rw [dirIndex, dirIndex, PAGE_SIZE]
  omega

theorem pageTableIndex_base (addr : Nat) : pageTableIndex (addr / PAGE_SIZE * PAGE_SIZE) = pageTableIndex addr := by
  rw [pageTableIndex, pageTableIndex, PAGE_SIZE]
  omega

/-- `enter_page` for the kernel. -/
theorem enterPage_slot (h : Holds m L) (hK : L.ktab = some K) (hk : scan (m.ram K) 1024 = some k) {f v : Nat} :
    Returns (enterPageWith alloc copy f KERNEL_MEMORY flags) m v m' ↔
      v = slotAddr k ∧ m' = m.setWord K k (mkEntry f (flags ||| 1#32)) := by
  obtain ⟨_, hlt, _⟩ := scan_some (le_refl _) hk
  have hd : dirIndex (slotAddr k) = 769 := @dirIndex_slot k 0 hlt (by decide)
  have hi : pageTableIndex (slotAddr k) = k := @pageTableIndex_slot k 0 hlt (by decide)
  obtain ⟨hp, hf, hs⟩ := h.curDir.ktab K hK
  have hpde : m.pde (slotAddr k) = m.ram m.cr3 769 := by rw [Machine.pde, hd]
  rw [enterPageWith, Returns.bind_iff ((getFreeAddress_slot h hK hk).mpr ⟨rfl, rfl⟩),
    mapPage_ok h.env (slot_lt hlt) (hpde ▸ hp) (hpde ▸ hs), hpde, hf, hi]

/-- The state in `unshare` when the new frame is mapped: the old one lies at the slot. -/
def Machine.swapped (m : Machine) (K k addr new : Nat) (flags : Word) : Machine :=
  ((m.setWord K k (mkEntry (frameOf (m.pte addr)) (flags ||| 1#32))).setCount new 1).setWord (frameOf (m.pde addr))
    (pageTableIndex addr) (mkEntry new 7#32)

section Swapped

variable {new f j : Nat} (h : Holds m L) (hK : L.ktab = some K) (hx : Spot m L addr)

include hx in
/-- The kernel half does not change with the entry of `addr`. -/
theorem Spot.high (hj : 768 ≤ j) : frameOf (m.pde addr) ≠ m.cr3 ∨ pageTableIndex addr ≠ j := by
  by_cases hc : frameOf (m.pde addr) = m.cr3
  · have := (hx.dir hc).2
    right
    omega
  · exact Or.inl hc

theorem swapped_of_ne (hfK : f ≠ K) (hfT : f ≠ frameOf (m.pde addr) ∨ j ≠ pageTableIndex addr) :
    (m.swapped K k addr new flags).ram f j = m.ram f j :=
  (setWord_of_ne _ _ _ _ hfT).trans (setWord_of_ne _ _ _ _ (Or.inl hfK))

include h hK hx

theorem swapped_dir (hj : 768 ≤ j) : (m.swapped K k addr new flags).ram m.cr3 j = m.ram m.cr3 j :=
  swapped_of_ne (ne_of_role h.current_role (h.ktab_role K hK) (by simp)) ((hx.high hj).imp Ne.symm Ne.symm)

theorem swapped_pde : (m.swapped K k addr new flags).pde addr = m.pde addr := by
  refine swapped_of_ne (ne_of_role h.current_role (h.ktab_role K hK) (by simp)) ?_
  by_cases hc : frameOf (m.pde addr) = m.cr3
  · obtain ⟨h1, h2⟩ := hx.dir hc
    right
    omega
  · exact Or.inl (Ne.symm hc)

theorem swapped_pte : (m.swapped K k addr new flags).pte addr = mkEntry new 7#32 := by
  rw [Machine.pte, swapped_pde h hK hx]
  exact setWord_self ..

omit h in
theorem swapped_slot : (m.swapped K k addr new flags).ram K k = mkEntry (frameOf (m.pte addr)) (flags ||| 1#32) :=
  (setWord_of_ne _ _ _ _ (Or.inl (hx.ne_ktab K hK).1.symm)).trans (setWord_self ..)

theorem mapPage_swapped (hk : scan (m.ram K) 1024 = some k) :
    Returns (mapPageWith alloc copy new addr (PG_USER ||| PG_RW))
      ((m.setWord K k (mkEntry (frameOf (m.pte addr)) (flags ||| 1#32))).setCount new 1) addr
      (m.swapped K k addr new flags) := by
  have habs := (scan_some (le_refl _) hk).2.2
  have hKc : m.cr3 ≠ K := ne_of_role h.current_role (h.ktab_role K hK) (by simp)
  have hpde : ((m.setWord K k (mkEntry (frameOf (m.pte addr)) (flags ||| 1#32))).setCount new 1).pde addr = m.pde addr :=
    setWord_of_ne _ _ _ _ (Or.inl hKc)
  have hE : Env ((m.setWord K k (mkEntry (frameOf (m.pte addr)) (flags ||| 1#32))).setCount new 1) :=
    h.env.grow (grown_setWord habs _) rfl rfl
  refine (mapPage_ok hE hx.lt (hpde ▸ hx.table) (hpde ▸ hx.private_)).mpr ⟨rfl, ?_⟩
  rw [hpde]
  rfl

/-- The kernel still reaches its tables. -/
theorem swapped_env (hk : scan (m.ram K) 1024 = some k) : Env (m.swapped K k addr new flags) := by
  have habs := (scan_some (le_refl _) hk).2.2
  have hKc : m.cr3 ≠ K := ne_of_role h.current_role (h.ktab_role K hK) (by simp)
  have hdir : 768 ≤ dirIndex m.cur.pageDirectory := by
    rcases h.dir_path with ⟨hd, _⟩ | ⟨hd, _⟩ <;> omega
  have hpath : ((m.setWord K k (mkEntry (frameOf (m.pte addr)) (flags ||| 1#32))).setCount new 1).pde m.cur.pageDirectory =
      m.pde m.cur.pageDirectory := setWord_of_ne _ _ _ _ (Or.inl hKc)
  have hTp : frameOf (m.pde addr) ≠ frameOf (m.pde m.cur.pageDirectory) := by
    rcases h.dir_path with ⟨_, hf⟩ | ⟨_, hK'⟩
    · rw [hf]
      exact hx.ne_low
    · exact (hx.ne_ktab _ hK').1
  have hE : Env ((m.setWord K k (mkEntry (frameOf (m.pte addr)) (flags ||| 1#32))).setCount new 1) :=
    h.env.grow (grown_setWord habs _) rfl rfl
  exact hE.setWord (hx.high (by decide)) (hx.high hdir) (Or.inl (congrArg frameOf hpath ▸ hTp))

/-- The contents go to the new frame. -/
theorem copyPage_swapped (hk : scan (m.ram K) 1024 = some k) (hfl : flags.toNat < 2 ^ 12) (hlt : new < 2 ^ 20)
    (hnew : Apart m L addr new) :
    Returns (copyPage (addr / PAGE_SIZE * PAGE_SIZE) (slotAddr k)) (m.swapped K k addr new flags) ()
      ((m.swapped K k addr new flags).setFrame new (filled 1024 (m.ram (frameOf (m.pte addr))) (m.ram new))) := by
  obtain ⟨_, hklt, _⟩ := scan_some (le_refl _) hk
  obtain ⟨hp769, hf769, _⟩ := h.curDir.ktab K hK
  have hflags : (flags ||| 1#32).toNat < 2 ^ 12 := by
    rw [BitVec.toNat_or]
    exact Nat.or_lt_two_pow hfl (by decide)
  have hd : dirIndex (slotAddr k) = 769 := @dirIndex_slot k 0 hklt (by decide)
  have hi : pageTableIndex (slotAddr k) = k := @pageTableIndex_slot k 0 hklt (by decide)
  have hram : ∀ f, f ≠ K → f ≠ frameOf (m.pde addr) → (m.swapped K k addr new flags).ram f = m.ram f :=
    fun f hfK hfT => funext fun _ => swapped_of_ne hfK (Or.inl hfT)
  have hslot : (m.swapped K k addr new flags).pde (slotAddr k) = m.ram m.cr3 769 := by
    rw [Machine.pde, hd]
    exact swapped_dir h hK hx (by decide)
  have hbase : (m.swapped K k addr new flags).pde (addr / PAGE_SIZE * PAGE_SIZE) = m.pde addr := by
    rw [Machine.pde, dirIndex_base, ← Machine.pde, swapped_pde h hK hx]
  have hsrc : walk (m.swapped K k addr new flags).ram (m.swapped K k addr new flags).cr3 (slotAddr k) =
      some (frameOf (m.pte addr)) := by
    have hpte : (m.swapped K k addr new flags).pte (slotAddr k) = mkEntry (frameOf (m.pte addr)) (flags ||| 1#32) := by
      rw [Machine.pte, hslot, hf769, hi, swapped_slot hK hx]
    rw [walk_pte, hslot, hpte, hp769, frameOf_mkEntry (frameOf_lt _) hflags]
    simp
  have hdst : walk (m.swapped K k addr new flags).ram (m.swapped K k addr new flags).cr3 (addr / PAGE_SIZE * PAGE_SIZE) =
      some new := by
    have hpte : (m.swapped K k addr new flags).pte (addr / PAGE_SIZE * PAGE_SIZE) = mkEntry new 7#32 := by
      rw [← swapped_pte h hK hx, Machine.pte, hbase, pageTableIndex_base, Machine.pte, swapped_pde h hK hx]
    rw [walk_pte, hbase, hpte, hx.table, present_mkEntry, frameOf_mkEntry hlt (by decide)]
    rfl
  rw [← hram _ (hx.ne_ktab K hK).2 hx.ne_own, ← hram _ (hnew.ktab K hK) hnew.table]
  refine (copyPage_ok (wordIndex_base addr) (slot_aligned k) hdst hsrc hnew.old.symm ?_ ?_).mpr rfl
  · rw [OnPath, not_or, hbase]
    exact ⟨hnew.cr3, hnew.table⟩
  · rw [OnPath, not_or, hslot, hf769]
    exact ⟨hnew.cr3, hnew.ktab K hK⟩

end Swapped

/-- The state in `unshare` when the new frame is mapped. -/
theorem unshare_mapped (h : Holds m L) (hK : L.ktab = some K) (hk : scan (m.ram K) 1024 = some k)
    (hx : Spot m L addr) (hfl : flags.toNat < 2 ^ 12) {new : Nat} (hlt : new < 2 ^ 20) (hnew : Apart m L addr new) :
    Returns (do
      let _ ← mapPageWith alloc copy new addr (PG_USER ||| PG_RW)
      copyPage (addr / PAGE_SIZE * PAGE_SIZE) (slotAddr k)
      freePageWith copy (slotAddr k)) ((m.setWord K k (mkEntry (frameOf (m.pte addr)) (flags ||| 1#32))).setCount new 1)
      u m' ↔ m' = m.unshared K k addr new flags := by
  obtain ⟨_, hklt, _⟩ := scan_some (le_refl _) hk
  obtain ⟨hp769, hf769, hs769⟩ := h.curDir.ktab K hK
  have hflags : (flags ||| 1#32).toNat < 2 ^ 12 := by
    rw [BitVec.toNat_or]
    exact Nat.or_lt_two_pow hfl (by decide)
  have hd : dirIndex (slotAddr k) = 769 := @dirIndex_slot k 0 hklt (by decide)
  have hi : pageTableIndex (slotAddr k) = k := @pageTableIndex_slot k 0 hklt (by decide)
  rw [Returns.bind_iff (mapPage_swapped h hK hx hk), Returns.bind_iff (copyPage_swapped h hK hx hk hfl hlt hnew)]
  -- the slot is freed
  have hpath : frameOf ((m.swapped K k addr new flags).pde m.cur.pageDirectory) = frameOf (m.pde m.cur.pageDirectory) := by
    have hdir : 768 ≤ dirIndex m.cur.pageDirectory := by
      rcases h.dir_path with ⟨hd, _⟩ | ⟨hd, _⟩ <;> omega
    exact congrArg frameOf (swapped_dir h hK hx hdir)
  have hE : Env ((m.swapped K k addr new flags).setFrame new (filled 1024 (m.ram (frameOf (m.pte addr))) (m.ram new))) := by
    refine (swapped_env h hK hx hk).setFrame hnew.cr3 ?_ _
    have hcur : (m.swapped K k addr new flags).cur = m.cur := rfl
    rw [hcur, hpath]
    exact hnew.dir_path h
  have hpde : ((m.swapped K k addr new flags).setFrame new (filled 1024 (m.ram (frameOf (m.pte addr))) (m.ram new))).pde
      (slotAddr k) = m.ram m.cr3 769 := by
    rw [Machine.pde, hd]
    exact (congrFun (setFrame_of_ne _ _ _ hnew.cr3.symm) _).trans (swapped_dir h hK hx (by decide))
  have hpte : ((m.swapped K k addr new flags).setFrame new (filled 1024 (m.ram (frameOf (m.pte addr))) (m.ram new))).pte
      (slotAddr k) = mkEntry (frameOf (m.pte addr)) (flags ||| 1#32) := by
    rw [Machine.pte, hpde, hf769, hi, setFrame_of_ne _ _ _ (hnew.ktab K hK).symm, swapped_slot hK hx]
  have hone : present (mkEntry (frameOf (m.pte addr)) (flags ||| 1#32)) = true := by simp
  rw [freePage_ok hE (slot_lt hklt) (hpde ▸ hs769), hpde, hpte, hp769, hone, hf769, hi,
    frameOf_mkEntry (frameOf_lt _) hflags]
  exact Iff.rfl

/-- **Replacing a frame**, by any that is apart from those the copy goes through. -/
theorem unshare_iff (h : Holds m L) (hK : L.ktab = some K) (hk : scan (m.ram K) 1024 = some k) (hx : Spot m L addr)
    (hfl : flags.toNat < 2 ^ 12)
    (hA : ∀ new m1, Returns alloc (m.setWord K k (mkEntry (frameOf (m.pte addr)) (flags ||| 1#32))) new m1 →
      new < 2 ^ 20 ∧ m1 = (m.setWord K k (mkEntry (frameOf (m.pte addr)) (flags ||| 1#32))).setCount new 1 ∧
        Apart m L addr new) :
    Returns (unshare alloc copy addr flags) m u m' ↔
      ∃ new m1, Returns alloc (m.setWord K k (mkEntry (frameOf (m.pte addr)) (flags ||| 1#32))) new m1 ∧
        m' = m.unshared K k addr new flags := by
  have hframe := (@pageFrame_ok m m h.env addr hx.lt _).mpr ⟨rfl, rfl⟩
  rw [if_pos hx.table] at hframe
  have henter := (@enterPage_slot _ alloc copy m _ L K k flags h hK hk (frameOf (m.pte addr)) _).mpr ⟨rfl, rfl⟩
  have hnull : decide (slotAddr k = NULL) = false := by
    apply decide_eq_false
    rw [slotAddr, NULL]
    omega
  rw [unshare, Returns.bind_iff hframe, Returns.bind_iff henter, onlyIf_neg hnull,
    Returns.bind_iff (pure_ok.mpr ⟨rfl, rfl⟩), bind_ok]
  constructor
  · rintro ⟨new, m1, hnew, hr⟩
    obtain ⟨hlt, rfl, hap⟩ := hA new m1 hnew
    exact ⟨new, _, hnew, (unshare_mapped h hK hk hx hfl hlt hap).mp hr⟩
  · rintro ⟨new, m1, hnew, hr⟩
    obtain ⟨hlt, rfl, hap⟩ := hA new m1 hnew
    exact ⟨new, _, hnew, (unshare_mapped h hK hk hx hfl hlt hap).mpr hr⟩

/-- Replacing a frame by one that nothing reaches. -/
theorem unshare_ok (h : Holds m L) (hK : L.ktab = some K) (hk : scan (m.ram K) 1024 = some k) (hx : Spot m L addr)
    (hfl : flags.toNat < 2 ^ 12) (hA : Hands alloc m) :
    Returns (unshare alloc copy addr flags) m u m' ↔
      ∃ new m1, Returns alloc (m.setWord K k (mkEntry (frameOf (m.pte addr)) (flags ||| 1#32))) new m1 ∧
        new < 2 ^ 20 ∧ m.bitmap new = 0 ∧ ¬ Reaches m new ∧ m' = m.unshared K k addr new flags := by
  obtain ⟨_, _, habs⟩ := scan_some (le_refl _) hk
  have hgrow := grown_setWord habs (mkEntry (frameOf (m.pte addr)) (flags ||| 1#32))
  rw [unshare_iff h hK hk hx hfl]
  · constructor
    · rintro ⟨new, m1, hnew, hm⟩
      obtain ⟨hlt, hzero, _, hfresh⟩ := hA.take_grown hgrow rfl rfl rfl hnew
      exact ⟨new, m1, hnew, hlt, hzero, hfresh, hm⟩
    · rintro ⟨new, m1, hnew, _, _, _, hm⟩
      exact ⟨new, m1, hnew, hm⟩
  · intro new m1 hnew
    obtain ⟨hlt, _, hm, hfresh⟩ := hA.take_grown hgrow rfl rfl rfl hnew
    exact ⟨hlt, hm, hx.apart h hfresh⟩

end Unshare

/-! ## The layout afterwards -/

section Layout

variable {m : Machine} {L : Uses s} {K k addr d i : Nat} {flags w : Word}

theorem Holds.drop (h : Holds m L) (f : Nat) : Holds (m.drop f) L := by
  rcases drop_cases m f with ⟨_, he⟩ | ⟨_, he⟩
  · rw [he]
    exact h.setCount f _
  · rw [he]
    exact h

theorem slotAddr_inj {k k' : Nat} (h : slotAddr k = slotAddr k') : k = k' := by
  rw [slotAddr, slotAddr, PAGE_SIZE] at h
  omega

/-- A slot with an absent entry is no task's. -/
theorem Holds.slot_free (h : Holds m L) (hK : L.ktab = some K) (hk : k < 1024) (hp : present (m.ram K k) = false)
    {p : Nat} {t : TaskStruct} (ht : m.tasks p = some t) : t.addr ≠ slotAddr k ∧ t.pageDirectory ≠ slotAddr k := by
  by_cases hp0 : p = 0
  · obtain ⟨hdir, hlt, _, haddr⟩ := (h.task p t ht).boot hp0
    simp only [KERNEL_MEMORY, PAGE_SIZE] at hdir haddr
    constructor
    · intro he
      rw [he, slotAddr, PAGE_SIZE] at haddr
      omega
    · intro he
      rw [he, slotAddr, PAGE_SIZE] at hdir
      omega
  · obtain ⟨K', a, b, hK', _, _, _, haddr, hpa, _, hdir, hpb, _⟩ := (h.task p t ht).slots hp0
    obtain rfl : K' = K := Option.some.inj (hK'.symm.trans hK)
    constructor
    · intro he
      rw [haddr] at he
      rw [slotAddr_inj he, hp] at hpa
      cases hpa
    · intro he
      rw [hdir] at he
      rw [slotAddr_inj he, hp] at hpb
      cases hpb

theorem drop_setWord (m : Machine) (f i g : Nat) (w : Word) : (m.setWord f i w).drop g = (m.drop g).setWord f i w := by
  rw [Machine.drop, Machine.drop, setWord_bitmap]
  split <;> rfl

/-- The slot is free again, so that a copy changes one entry and fills one frame. -/
theorem unshared_eq (hK : L.ktab = some K) (hx : Spot m L addr) {new : Nat} (hnew : Apart m L addr new) :
    m.unshared K k addr new flags =
      ((((m.setFrame new (filled 1024 (m.ram (frameOf (m.pte addr))) (m.ram new))).setCount new 1).setWord
        (frameOf (m.pde addr)) (pageTableIndex addr) (mkEntry new 7#32)).drop (frameOf (m.pte addr))).setWord K k
        (absent (mkEntry (frameOf (m.pte addr)) (flags ||| 1#32))) := by
  have hnewT := hnew.table
  have hnewK := hnew.ktab K hK
  have hTK := (hx.ne_ktab K hK).1
  rw [Machine.unshared, ← drop_setWord, ← drop_setWord]
  congr 1
  simp only [Machine.setWord, Machine.setFrame, Machine.setCount]
  congr 1
  funext f
  by_cases hfK : f = K
  · subst hfK
    simp [hnewK.symm, hTK.symm]
  · by_cases hfn : f = new
    · subst hfn
      simp [hfK, hnewT]
    · by_cases hfT : f = frameOf (m.pde addr)
      · subst hfT
        simp [hfK, hfn]
      · simp [hfK, hfn, hfT]

theorem NoTable.use {f g : Nat} {r : Role} (h : NoTable m L f) : NoTable m (L.use g r) f :=
  ⟨h.low, h.ktab, h.dir, h.table⟩

/-- The window page of a page table can be replaced. -/
theorem Spot.window (h : Holds m L) (hd : d < 768) (hp : present (m.ram m.cr3 d) = true) : Spot m L (window d) := by
  have hE := h.env
  have hD := h.curDir
  have hpde : m.pde (Mm.window d) = m.ram m.cr3 1023 := by rw [Machine.pde, dirIndex_window' (by omega)]
  have hf : frameOf (m.pde (Mm.window d)) = m.cr3 := by rw [hpde, hE.self_frame]
  have hpte : m.pte (Mm.window d) = m.ram m.cr3 d := hE.pte_window (by omega)
  have hrole := h.curSpace.table d hd hp
  have hi : pageTableIndex (Mm.window d) = d := @pageTableIndex_window d 0 (by omega) (by decide)
  refine ⟨window_lt (by omega), ?_, ?_, ?_, ?_, ?_, ?_, ?_, ?_, ?_⟩
  · rw [hpde]
    exact hE.self
  · rw [hpde]
    exact hD.self_private
  · rw [hpte]
    exact hp
  · rw [hf]
    exact ne_of_role h.current_role h.low_role (by simp)
  · intro K hK
    rw [hf, hpte]
    exact ⟨ne_of_role h.current_role (h.ktab_role K hK) (by simp), ne_of_role hrole (h.ktab_role K hK) (by simp)⟩
  · rw [hf, hpte]
    exact ne_of_role hrole h.current_role (by simp)
  · intro _
    rw [hi]
    exact ⟨dirIndex_window' (by omega), hd⟩
  · rw [hf]
    exact h.reaches_cr3
  · rw [hpte, h.cr3]
    rw [h.cr3] at hp
    exact h.reaches_window h.curTask (by omega) hp

/-- The page under an entry of a private table can be replaced. -/
theorem Spot.page (h : Holds m L) (ha : addr < 2 ^ 32) (hpage : HasPage m.ram m.cr3 (dirIndex addr) (pageTableIndex addr))
    (hs : shared (m.pde addr) = false) : Spot m L addr := by
  have hrole := h.curSpace.table _ hpage.1 hpage.2.2.1
  have hdata := h.curSpace.page _ _ hpage
  refine ⟨ha, hpage.2.2.1, hs, hpage.2.2.2, ?_, ?_, ?_, ?_, ?_, ?_⟩
  · exact ne_of_role hrole h.low_role (by simp)
  · intro K hK
    exact ⟨ne_of_role hrole (h.ktab_role K hK) (by simp), ne_of_role hdata (h.ktab_role K hK) (by simp)⟩
  · exact ne_of_role hdata hrole (by simp)
  · intro he
    exact absurd he (ne_of_role hrole h.current_role (by simp))
  · have hp := hpage.2.2.1
    rw [h.cr3] at hp
    have hr := h.reaches_window h.curTask (by have := hpage.1; omega) hp
    rwa [← h.cr3] at hr
  · rw [h.cr3] at hpage
    have hr := h.reaches_page h.curTask hpage
    rwa [← h.cr3] at hr

/-- A page table copied to a new frame. -/
theorem Holds.unsharedTable (h : Holds m L) (hK : L.ktab = some K) (hk : k < 1024) (habs : present (m.ram K k) = false)
    (hd : d < 768) (hp : present (m.ram m.cr3 d) = true) {new : Nat} (hlt : new < 2 ^ 20) (hnew : ¬ Reaches m new) :
    Holds (m.unshared K k (window d) new flags) (L.use new (.table (entryOf s d))) := by
  have hx := Spot.window h hd hp
  have hn := h.noTable_of_unreached hnew
  have hpde : frameOf (m.pde (window d)) = m.cr3 := by
    rw [Machine.pde, dirIndex_window' (by omega)]
    exact h.env.self_frame
  have hold : m.pte (window d) = m.ram m.cr3 d := h.env.pte_window (by omega)
  have hi : pageTableIndex (window d) = d := @pageTableIndex_window d 0 (by omega) (by decide)
  rw [unshared_eq hK hx (hx.apart h hnew), hpde, hold, hi]
  set T := frameOf (m.ram m.cr3 d) with hT
  set g := filled 1024 (m.ram T) (m.ram new) with hg
  have h3 : Holds ((m.setFrame new g).setCount new 1) (L.use new (.table (entryOf s d))) :=
    ((h.use (h.spare_of_unreached hnew) _).setFrame hn.use g).setCount new 1
  have hTn : T ≠ new := by
    have := hx.reached.2
    rw [hold] at this
    exact fun he => hnew (he ▸ this)
  have hcn : m.cr3 ≠ new := fun he => hnew (he ▸ h.reaches_cr3)
  have hramT : ((m.setFrame new g).setCount new 1).ram T = m.ram T := setFrame_of_ne _ _ _ hTn
  have hramc : ((m.setFrame new g).setCount new 1).ram m.cr3 = m.ram m.cr3 := setFrame_of_ne _ _ _ hcn
  have hramn : ∀ i, i < 1024 → ((m.setFrame new g).setCount new 1).ram new i = m.ram T i := by
    intro i hi
    show (m.setFrame new g).ram new i = _
    rw [setFrame_self, hg, filled_lt hi]
  have hw : frameOf (mkEntry new 7#32) = new := frameOf_mkEntry hlt (by decide)
  have hpage : ∀ i, i < 1024 → present (m.ram T i) = true →
      HasPage ((m.setFrame new g).setCount new 1).ram m.cr3 d i ∧
      pageOf ((m.setFrame new g).setCount new 1).ram m.cr3 d i = frameOf (m.ram T i) := by
    intro i hi hpi
    rw [HasPage, pageOf, hramc, ← hT, hramT]
    exact ⟨⟨hd, hi, hp, hpi⟩, rfl⟩
  have h4 : Holds (((m.setFrame new g).setCount new 1).setWord m.cr3 d (mkEntry new 7#32))
      (L.use new (.table (entryOf s d))) := by
    refine h3.setPde hd ⟨?_, ?_, ?_, ?_, ?_, ?_, ?_⟩
    · intro _
      rw [hw, use_role_self]
    · intro _ q u d' hu hd' _ hpq heq
      have hne : L.dir q ≠ new := fun he => hnew (he ▸ h.reaches_dir hu)
      have hram : ((m.setFrame new g).setCount new 1).ram (L.dir q) = m.ram (L.dir q) := setFrame_of_ne _ _ _ hne
      rw [show (L.use new (.table (entryOf s d))).dir q = L.dir q from rfl, hram] at hpq heq
      rw [hw] at heq
      exact hnew (heq ▸ h.reaches_window hu (by omega) hpq)
    · intro _ i hi hpi
      rw [hw, hramn i hi] at hpi ⊢
      obtain ⟨hpi', hof⟩ := hpage i hi hpi
      have hdata := h3.curSpace.page d i hpi'
      rw [show ((m.setFrame new g).setCount new 1).cr3 = m.cr3 from rfl, hof] at hdata
      refine ⟨hdata, fun hs => ⟨?_, ?_⟩⟩
      · intro d' i' hne hp' heq
        rw [← hof] at heq
        exact hne (h3.curSpace.inj hs d' i' d i hp' hpi' heq).1
      · intro i' hi' hpi2 heq
        rw [hramn i' hi'] at hpi2 heq
        obtain ⟨hpi2', hof2⟩ := hpage i' hi' hpi2
        rw [← hof, ← hof2] at heq
        exact (h3.curSpace.inj hs d i d i' hpi' hpi2' heq).2
    · simp
    · simp
    · simp
    · simp
  exact (h4.drop T).setSlot hK hk _ fun p t ht => h.slot_free hK hk habs (p := p) (by simpa using ht)

/-- A page of a private table copied to a new frame. -/
theorem Holds.unsharedPage (h : Holds m L) (hK : L.ktab = some K) (hk : k < 1024) (habs : present (m.ram K k) = false)
    (ha : addr < 2 ^ 32) (hpage : HasPage m.ram m.cr3 (dirIndex addr) (pageTableIndex addr))
    (hs : shared (m.pde addr) = false) {new : Nat} (hlt : new < 2 ^ 20) (hnew : ¬ Reaches m new) :
    Holds (m.unshared K k addr new flags) (L.use new .data) := by
  have hx := Spot.page h ha hpage hs
  have hn := h.noTable_of_unreached hnew
  rw [unshared_eq hK hx (hx.apart h hnew)]
  set g := filled 1024 (m.ram (frameOf (m.pte addr))) (m.ram new) with hg
  have h3 : Holds ((m.setFrame new g).setCount new 1) (L.use new .data) :=
    ((h.use (h.spare_of_unreached hnew) _).setFrame hn.use g).setCount new 1
  have hcn : m.cr3 ≠ new := fun he => hnew (he ▸ h.reaches_cr3)
  have hramc : ((m.setFrame new g).setCount new 1).ram m.cr3 = m.ram m.cr3 := setFrame_of_ne _ _ _ hcn
  have hw : frameOf (mkEntry new 7#32) = new := frameOf_mkEntry hlt (by decide)
  have hT : frameOf (m.pde addr) = frameOf (((m.setFrame new g).setCount new 1).ram m.cr3 (dirIndex addr)) := by
    rw [hramc]
    rfl
  have h4 : Holds (((m.setFrame new g).setCount new 1).setWord (frameOf (m.pde addr)) (pageTableIndex addr)
      (mkEntry new 7#32)) (L.use new .data) := by
    rw [hT]
    refine h3.setPte hpage.1 ?_ ?_ ?_ (by simp)
    · show present (((m.setFrame new g).setCount new 1).ram m.cr3 _) = true
      rw [hramc]
      exact hpage.2.2.1
    · show shared (((m.setFrame new g).setCount new 1).ram m.cr3 _) = false
      rw [hramc]
      exact hs
    · intro _
      rw [hw]
      refine ⟨use_role_self .., fun _ => ?_⟩
      rintro d' i' ⟨hd', hi', hp', hq'⟩ heq
      rw [pageOf] at heq
      rw [show ((m.setFrame new g).setCount new 1).cr3 = m.cr3 from rfl, hramc] at hp' hq' heq
      rw [h.cr3] at hp' hq' heq
      have hTn : frameOf (m.ram (L.dir m.current) d') ≠ new :=
        fun he => hnew (he ▸ h.reaches_window h.curTask (by omega) hp')
      rw [show ((m.setFrame new g).setCount new 1).ram (frameOf (m.ram (L.dir m.current) d')) =
        m.ram (frameOf (m.ram (L.dir m.current) d')) from setFrame_of_ne _ _ _ hTn] at hq' heq
      exact absurd (heq ▸ h.reaches_page h.curTask ⟨hd', hi', hp', hq'⟩) hnew
  exact (h4.drop _).setSlot hK hk _ fun p t ht => h.slot_free hK hk habs (p := p) (by simpa using ht)

end Layout

end Raampjes.Mm
