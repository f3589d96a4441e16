import Raampjes.Lib.Refs
import Raampjes.Mm.FreeAddress
import Raampjes.Mm.KernelHalf

/-!
# The frame table and the references

The references of an address space to a frame are its user pages and its page tables; the kernel half, which all address
spaces have in common, counts once.

- `held`, `KernelRefers`, `Counted`: each counter is at least the number of references;
- `walk_cases`: a frame that is reached is referred to; `Counted.hands`: then `alloc_page_frame` takes frames that nothing
  reaches;
- `Elsewhere`: what refers to a frame apart from one page; `Counted.elsewhere`: the last reference;
- `Counted.local`: a change of the running task's references that the counters follow.
-/

namespace Raampjes.Mm

open Progs Refs Sched

variable {s : Bool}

/-- The page directory of the task in slot `p`. -/
def directoryOf (m : Machine) (p : Nat) : Option Nat := (m.tasks p).bind fun t => walk m.ram m.cr3 t.pageDirectory

/-- The numbers of the user pages with the frame `f`. -/
def pagesOf (ram : Nat → Nat → Word) (D f : Nat) : Finset Nat :=
  (Finset.range (KERNEL_MEMORY / PAGE_SIZE)).filter fun n => walk ram D (n * PAGE_SIZE) = some f

/-- The directory entries of the user half with the page table `f`. -/
def tablesOf (ram : Nat → Nat → Word) (D f : Nat) : Finset Nat :=
  (Finset.range 768).filter fun d => present (ram D d) = true ∧ frameOf (ram D d) = f

/-- The number of references of an address space to the frame `f`. -/
def held (ram : Nat → Nat → Word) (D f : Nat) : Nat := (pagesOf ram D f).card + (tablesOf ram D f).card

/-- The references of the task in slot `p`. -/
def heldBy (m : Machine) (p f : Nat) : Nat :=
  match directoryOf m p with
  | some D => held m.ram D f
  | none => 0

/-- The kernel half refers to the frame `f`, by a page or by a page table. -/
def KernelRefers (m : Machine) (f : Nat) : Prop :=
  (∃ a, KERNEL_MEMORY ≤ a ∧ a < 0xFFC00000 ∧ walk m.ram m.cr3 a = some f) ∨
    ∃ d, 768 ≤ d ∧ d < 1023 ∧ present (m.ram m.cr3 d) = true ∧ frameOf (m.ram m.cr3 d) = f

/-- **Each counter is at least the number of references** to its frame. -/
def Counted (m : Machine) : Prop :=
  Covered (Finset.range MAX_TASKS) (heldBy m) (KernelRefers m) fun f => (m.bitmap f).toNat

/-- Some address has the frame `f`, apart from the page of `v` in the running task. -/
def Elsewhere (m : Machine) (v f : Nat) : Prop :=
  ∃ p t D a, m.tasks p = some t ∧ a < 2 ^ 32 ∧ walk m.ram m.cr3 t.pageDirectory = some D ∧ walk m.ram D a = some f ∧
    ¬ (p = m.current ∧ a / PAGE_SIZE = v / PAGE_SIZE)

theorem Elsewhere.reaches {m : Machine} {v f : Nat} (h : Elsewhere m v f) : Reaches m f := by
  obtain ⟨p, t, D, a, ht, ha, hD, hw, _⟩ := h
  exact ⟨p, t, D, a, ht, ha, hD, hw⟩

theorem same_page_iff {a b : Nat} :
    a / PAGE_SIZE = b / PAGE_SIZE ↔ dirIndex a = dirIndex b ∧ pageTableIndex a = pageTableIndex b := by
  simp only [PAGE_SIZE, dirIndex, pageTableIndex]
  omega

theorem toNat_ne_zero {b : UInt8} : b.toNat ≠ 0 ↔ b ≠ 0 := by
  rw [ne_eq, ne_eq, ← UInt8.toNat_inj]
  rfl

section Refers

variable {m m' : Machine} {L L' : Uses s} {T : Finset Nat} {p q v a f D : Nat} {t : TaskStruct}

theorem heldBy_of (h : Holds m L) (ht : m.tasks p = some t) : heldBy m p = held m.ram (L.dir p) := by
  funext f
  have hdir : directoryOf m p = some (L.dir p) := by
    rw [directoryOf, ht, Option.bind_some, (h.task p t ht).walk_dir h h.curDir]
  rw [heldBy, hdir]

theorem heldBy_none (h : m.tasks p = none) : heldBy m p = fun _ => 0 := by
  funext f
  have hdir : directoryOf m p = none := by rw [directoryOf, h, Option.bind_none]
  rw [heldBy, hdir]

theorem heldBy_current (h : Holds m L) : heldBy m m.current = held m.ram m.cr3 := by
  rw [heldBy_of h h.curTask, h.cr3]

theorem mem_pagesOf {ram : Nat → Nat → Word} (ha : a < KERNEL_MEMORY) (hw : walk ram D a = some f) :
    a / PAGE_SIZE ∈ pagesOf ram D f := by
  refine Finset.mem_filter.mpr ⟨Finset.mem_range.mpr ?_, ?_⟩
  · rw [KERNEL_MEMORY, PAGE_SIZE] at *
    omega
  · rw [walk_base]
    exact hw

/-- The page directory of a task is mapped in the kernel half. -/
theorem TaskOk.dir_kernel (h : TaskOk m.ram L p t) : KERNEL_MEMORY ≤ t.pageDirectory ∧ t.pageDirectory < 0xFFC00000 := by
  by_cases hp : p = 0
  · obtain ⟨haddr, hlt, _⟩ := h.boot hp
    rw [haddr, KERNEL_MEMORY, PAGE_SIZE]
    omega
  · obtain ⟨_, _, b, _, _, hb, _, _, _, _, haddr, _⟩ := h.slots hp
    rw [haddr, slotAddr, KERNEL_MEMORY, PAGE_SIZE]
    omega

/-- A frame that an address space reaches is one of its pages or tables, or the kernel half refers to it. -/
theorem walk_cases (h : Holds m L) (ht : m.tasks p = some t) (ha : a < 2 ^ 32)
    (hw : walk m.ram (L.dir p) a = some f) :
    (a < KERNEL_MEMORY ∧ a / PAGE_SIZE ∈ pagesOf m.ram (L.dir p) f) ∨
      (KERNEL_MEMORY ≤ a ∧ 0 < (tablesOf m.ram (L.dir p) f).card) ∨ (KERNEL_MEMORY ≤ a ∧ KernelRefers m f) := by
  obtain ⟨hp, hq, hf⟩ := walk_eq_some.mp hw
  have hd := dirIndex_lt ha
  have hDok := (h.task p t ht).dirOk
  have hIs : IsDirectory m p (L.dir p) := (isDirectory_iff h).mpr ⟨by rw [ht]; rfl, rfl⟩
  have hCur : IsDirectory m m.current m.cr3 := (isDirectory_iff h).mpr ⟨h.cur, h.cr3⟩
  by_cases huser : a < KERNEL_MEMORY
  · exact Or.inl ⟨huser, mem_pagesOf huser hw⟩
  right
  rw [not_lt] at huser
  by_cases hlast : dirIndex a = 1023
  · -- the window
    have hi := pageTableIndex_lt a
    rw [hlast, hDok.self_frame] at hq hf
    by_cases h768 : pageTableIndex a < 768
    · left
      exact ⟨huser, Finset.card_pos.mpr ⟨_, Finset.mem_filter.mpr ⟨Finset.mem_range.mpr h768, hq, hf⟩⟩⟩
    · right
      refine ⟨huser, ?_⟩
      by_cases hself : pageTableIndex a = 1023
      · -- the directory, which is a page of the kernel
        rw [hself, hDok.self_frame] at hf
        subst hf
        obtain ⟨hge, hlt⟩ := (h.task p t ht).dir_kernel
        exact Or.inl ⟨t.pageDirectory, hge, hlt, (h.task p t ht).walk_dir h h.curDir⟩
      · obtain ⟨h1, h2⟩ := h.agree hIs hCur (d := pageTableIndex a) (by omega) (by omega)
        rw [h1] at hq
        rw [h2] at hf
        exact Or.inr ⟨pageTableIndex a, by omega, by omega, hq, hf⟩
  · right
    have h768 : 768 ≤ dirIndex a := by
      rw [KERNEL_MEMORY] at huser
      rw [dirIndex]
      omega
    obtain ⟨h1, h2⟩ := h.agree hIs hCur h768 (by omega)
    refine ⟨huser, Or.inl ⟨a, huser, ?_, ?_⟩⟩
    · rw [dirIndex] at hlast
      omega
    · rw [walk_eq_some, ← h1, ← h2]
      exact ⟨hp, hq, hf⟩

theorem task_mem (h : Holds m L) (ht : m.tasks p = some t) : p ∈ Finset.range MAX_TASKS :=
  Finset.mem_range.mpr (h.task p t ht).lt

theorem held_pos_of_page {ram : Nat → Nat → Word} {n : Nat} (h : n ∈ pagesOf ram D f) : 0 < held ram D f :=
  Nat.add_pos_left (Finset.card_pos.mpr ⟨n, h⟩) _

/-- **A frame that is reached is counted.** -/
theorem Counted.ne_zero (hc : Counted m) (h : Holds m L) (hr : Reaches m f) : m.bitmap f ≠ 0 := by
  obtain ⟨p, t, D, a, ht, ha, hD, hw⟩ := hr
  rw [(h.task p t ht).walk_dir h h.curDir, Option.some.injEq] at hD
  subst hD
  have hused : (∃ p ∈ Finset.range MAX_TASKS, 0 < heldBy m p f) ∨ KernelRefers m f := by
    rcases walk_cases h ht ha hw with ⟨_, hn⟩ | ⟨_, hpos⟩ | ⟨_, hk⟩
    · left
      refine ⟨p, task_mem h ht, ?_⟩
      rw [heldBy_of h ht]
      exact held_pos_of_page hn
    · left
      refine ⟨p, task_mem h ht, ?_⟩
      rw [heldBy_of h ht]
      exact Nat.add_pos_right _ hpos
    · exact Or.inr hk
  have hcount := Covered.ne_zero hc hused
  exact toNat_ne_zero.mp hcount

/-- When the frames that are reached are counted, `alloc_page_frame` takes others. -/
theorem hands_of_counted (h : ∀ f, Reaches m f → m.bitmap f ≠ 0) : Hands allocPageFrame m :=
  ⟨fun _ _ _ hr => allocPageFrame_ok hr, fun _ _ _ _ hb hr hf => h _ hf (hb _ (allocPageFrame_ok hr).2.1)⟩

theorem Counted.hands (hc : Counted m) (h : Holds m L) : Hands allocPageFrame m :=
  hands_of_counted fun _ hf => hc.ne_zero h hf

/-- The same after a frame was taken. -/
theorem Counted.hands_taken (hc : Counted m) (h : Holds m L) (g : Nat) : Hands allocPageFrame (m.setCount g 1) := by
  refine hands_of_counted fun f hf => ?_
  by_cases hfg : f = g
  · rw [hfg, setCount_self]
    decide
  · rw [setCount_of_ne _ _ _ hfg]
    exact hc.ne_zero h hf

/-- **The last reference**: with a counter of one, nothing else has the frame of a page. -/
theorem Counted.elsewhere (hc : Counted m) (h : Holds m L) (hv : v < KERNEL_MEMORY)
    (hw : walk m.ram m.cr3 v = some f) (hone : m.bitmap f = 1) : ¬ Elsewhere m v f := by
  have hpage := mem_pagesOf hv hw
  have hcur := heldBy_current h
  have hpos : 0 < heldBy m m.current f := by
    rw [hcur]
    exact held_pos_of_page hpage
  obtain ⟨hself, hkernel, hother⟩ := Covered.only hc (by rw [hone]; rfl) (task_mem h h.curTask) hpos
  rw [hcur, held] at hself
  have hcard : 0 < (pagesOf m.ram m.cr3 f).card := Finset.card_pos.mpr ⟨_, hpage⟩
  rintro ⟨p, t, D, a, ht, ha, hD, hwa, hne⟩
  rw [(h.task p t ht).walk_dir h h.curDir, Option.some.injEq] at hD
  subst hD
  by_cases hp : p = m.current
  · subst hp
    rcases walk_cases h ht ha hwa with ⟨_, hn⟩ | ⟨_, hpos⟩ | ⟨_, hk⟩
    · -- two pages with the frame
      rw [← h.cr3] at hn
      have hone : (pagesOf m.ram m.cr3 f).card = 1 := by omega
      exact hne ⟨rfl, Finset.card_le_one.mp hone.le _ hn _ hpage⟩
    · rw [← h.cr3] at hpos
      omega
    · exact hkernel hk
  · have hzero := hother p (task_mem h ht) hp
    rw [heldBy_of h ht, held] at hzero
    rcases walk_cases h ht ha hwa with ⟨_, hn⟩ | ⟨_, hpos⟩ | ⟨_, hk⟩
    · have := Finset.card_pos.mpr ⟨_, hn⟩
      omega
    · omega
    · exact hkernel hk

/-! ## Changes of the running task's references -/

/-- The references by pages, when only the page of `v` changes. -/
theorem pagesOf_change {ram ram' : Nat → Nat → Word} (hv : v < KERNEL_MEMORY)
    (hrest : ∀ a, a < KERNEL_MEMORY → a / PAGE_SIZE ≠ v / PAGE_SIZE → walk ram' D a = walk ram D a) :
    (pagesOf ram' D f).card + (if walk ram D v = some f then 1 else 0) =
      (pagesOf ram D f).card + (if walk ram' D v = some f then 1 else 0) := by
  have hmem : v / PAGE_SIZE ∈ Finset.range (KERNEL_MEMORY / PAGE_SIZE) := by
    rw [Finset.mem_range]
    rw [KERNEL_MEMORY, PAGE_SIZE] at *
    omega
  rw [← walk_base ram D v, ← walk_base ram' D v]
  refine card_filter_change (P := fun n => walk ram D (n * PAGE_SIZE) = some f)
    (Q := fun n => walk ram' D (n * PAGE_SIZE) = some f) hmem fun n hn hne => ?_
  have huser : n * PAGE_SIZE < KERNEL_MEMORY := by
    rw [Finset.mem_range] at hn
    rw [KERNEL_MEMORY, PAGE_SIZE] at *
    omega
  rw [hrest _ huser]
  rw [Nat.mul_div_cancel n (by decide)]
  exact hne

/-- An empty user half. -/
theorem held_empty {ram : Nat → Nat → Word} (hno : ∀ d, d < 768 → present (ram D d) = false) : held ram D f = 0 := by
  have hpages : pagesOf ram D f = ∅ := by
    refine Finset.filter_eq_empty_iff.mpr fun n hn hw => ?_
    have huser : n * PAGE_SIZE < KERNEL_MEMORY := by
      rw [Finset.mem_range, KERNEL_MEMORY, PAGE_SIZE] at hn
      rw [KERNEL_MEMORY, PAGE_SIZE]
      omega
    have hp := hno _ (dirIndex_user huser)
    rw [(walk_eq_some.mp hw).1] at hp
    cases hp
  have htables : tablesOf ram D f = ∅ := by
    refine Finset.filter_eq_empty_iff.mpr fun d hd hheld => ?_
    have hp := hno d (Finset.mem_range.mp hd)
    rw [hheld.1] at hp
    cases hp
  rw [held, hpages, htables, Finset.card_empty]

/-- The references of a directory with the same entries and the same page tables. -/
theorem held_congr {ram ram' : Nat → Nat → Word} (hs : SameSpace ram ram' D) : held ram' D f = held ram D f := by
  have hpages : pagesOf ram' D f = pagesOf ram D f := by
    apply Finset.filter_congr
    intro n hn
    have hlt : n * PAGE_SIZE < KERNEL_MEMORY := by
      have := Finset.mem_range.mp hn
      rw [KERNEL_MEMORY, PAGE_SIZE] at *
      omega
    obtain ⟨h1, h2⟩ := hs _ (dirIndex_user hlt)
    rw [walk, walk, h1]
    cases hp : present (ram D (dirIndex (n * PAGE_SIZE))) with
    | false => simp
    | true => rw [h2 hp _ (pageTableIndex_lt _)]
  have htables : tablesOf ram' D f = tablesOf ram D f := by
    apply Finset.filter_congr
    intro d hd
    rw [(hs d (Finset.mem_range.mp hd)).1]
  rw [held, held, hpages, htables]

/-- What the running task leaves alone keeps the references of the others. -/
theorem Local.heldBy (hl : Local m L m' L') (h : Holds m L) (h' : Holds m' L') (hq : q ≠ m.current) :
    heldBy m' q = heldBy m q := by
  cases ht : m.tasks q with
  | none =>
    have hnone : m'.tasks q = none := by
      have := hl.same.isSome q
      rw [ht] at this
      exact Option.not_isSome_iff_eq_none.mp (by rw [this]; simp)
    rw [heldBy_none ht, heldBy_none hnone]
  | some t =>
    obtain ⟨t', ht', _⟩ := hl.same.get ht
    rw [heldBy_of h ht, heldBy_of h' ht', hl.dir]
    funext f
    apply held_congr
    intro d hd
    refine ⟨congrFun (hl.other _ ⟨q, t, ht, hq, Or.inl rfl⟩) d, fun hp i _ => ?_⟩
    exact congrFun (hl.other _ ⟨q, t, ht, hq, Or.inr (Or.inl ⟨d, hd, hp, rfl⟩)⟩) i

/-- The kernel half has no new references. -/
structure KernelKept (m : Machine) (L : Uses s) (m' : Machine) : Prop where
  low : ∀ i, i < 1024 → m'.ram L.pt1 i = m.ram L.pt1 i
  slot : ∀ K j, L.ktab = some K → j < 1024 → present (m'.ram K j) = true → m'.ram K j = m.ram K j

theorem KernelKept.slack (hk : KernelKept m L m') (hktab : L'.ktab = L.ktab) (hs : Slack m L) : Slack m' L' := by
  intro K hK
  rw [hktab] at hK
  obtain ⟨k, hscan⟩ := hs K hK
  obtain ⟨_, hlt, habs⟩ := scan_some (le_refl _) hscan
  apply Option.ne_none_iff_exists'.mp
  intro hnone
  -- a slot that is present was present before
  have hp := (scan_eq_none (le_refl _)).mp hnone k (by omega) hlt
  rw [hk.slot K k hK hlt hp, habs] at hp
  cases hp

theorem KernelKept.refers (hk : KernelKept m L m') (hcr3 : m'.cr3 = m.cr3)
    (hkept : ∀ d, 768 ≤ d → d < 1024 → m'.ram m.cr3 d = m.ram m.cr3 d) (h : Holds m L) (hr : KernelRefers m' f) :
    KernelRefers m f := by
  have hD := h.curDir
  have hhigh : ∀ d, 768 ≤ d → d < 1024 → m'.ram m'.cr3 d = m.ram m.cr3 d := fun d h1 h2 => by
    rw [hcr3]
    exact hkept d h1 h2
  rcases hr with ⟨a, hge, hlt, hw⟩ | ⟨d, hge, hlt, hp, hf⟩
  · refine Or.inl ⟨a, hge, hlt, ?_⟩
    have hi := pageTableIndex_lt a
    have h768 : 768 ≤ dirIndex a := by
      rw [KERNEL_MEMORY] at hge
      rw [dirIndex]
      omega
    have hlast : dirIndex a < 1023 := by
      rw [dirIndex]
      omega
    rw [← hw]
    obtain ⟨hp, hq, _⟩ := walk_eq_some.mp hw
    have hdir := hhigh _ h768 (by omega)
    rw [hdir] at hp hq
    refine (walk_congr ?_ ?_).symm.trans (by rw [hcr3])
    · rw [← hdir, hcr3]
    · by_cases hlow : dirIndex a = 768
      · rw [hlow, hD.low_frame]
        exact hk.low _ hi
      · by_cases hslot : dirIndex a = 769
        · cases hK : L.ktab with
          | none =>
            rw [hslot, hD.no_ktab hK] at hp
            cases hp
          | some K =>
            obtain ⟨_, hfK, _⟩ := hD.ktab K hK
            rw [hslot, hfK] at hq ⊢
            exact hk.slot K _ hK hi hq
        · rw [hD.rest _ (by omega) hlast] at hp
          cases hp
  · rw [hhigh d hge (by omega)] at hp hf
    exact Or.inr ⟨d, hge, hlt, hp, hf⟩

/-- **The counters stay covered** when they follow the references of the running task. -/
theorem Counted.local (hc : Counted m) (h : Holds m L) (h' : Holds m' L') (hl : Local m L m' L') (hk : KernelKept m L m')
    (hb : Balanced (held m.ram m.cr3) (held m'.ram m.cr3) (fun f => (m.bitmap f).toNat) fun f => (m'.bitmap f).toNat) :
    Counted m' := by
  refine Covered.balanced hc (task_mem h h.curTask) (fun q _ hq f => congrFun (hl.heldBy h h' hq) f) ?_
    fun f hf => hk.refers hl.same.cr3 hl.high h hf
  have hcur' := heldBy_current h'
  rw [hl.same.current, hl.same.cr3] at hcur'
  rw [heldBy_current h, hcur']
  exact hb

end Refers

/-! ## At boot -/

section Boot

variable {img : Image} {tag : MmapTag} {table : FrameTable} {ram : Nat → Nat → Word} {f : Nat}

/-- The first directory names its page table, and itself. -/
theorem boot_kernel_entry {d : Nat} (hd : 768 ≤ d) (hlt : d < 1023)
    (hp : present ((boot img tag table ram).ram img.directory d) = true) : d = 768 := by
  by_contra hne
  rw [boot_directory, if_neg (by omega), if_neg (by omega), if_neg hne] at hp
  exact absurd hp (by decide)

/-- The kernel half refers to the first 4 MiB only. -/
theorem boot_refers (hf : KernelRefers (boot img tag table ram) f) : f < 1024 := by
  have hD := boot_dirOk img tag table ram
  have hcr3 : (boot img tag table ram).cr3 = img.directory := rfl
  have hlow : (bootLayout img).pt1 = img.table := rfl
  rcases hf with ⟨a, hge, hlt, hw⟩ | ⟨d, hge, hlt, hp, hf⟩
  · obtain ⟨hp, _, hf⟩ := walk_eq_some.mp hw
    have h768 : 768 ≤ dirIndex a := by
      rw [KERNEL_MEMORY] at hge
      rw [dirIndex]
      omega
    have hlast : dirIndex a < 1023 := by
      rw [dirIndex]
      omega
    have hi := pageTableIndex_lt a
    rw [hcr3] at hp hf
    rw [boot_kernel_entry h768 hlast hp, hD.low_frame, hlow, boot_table, frameOf_mkEntry (by omega) (by decide)] at hf
    omega
  · have ht := img.table_lt
    rw [hcr3] at hp hf
    rw [boot_kernel_entry hge hlt hp, hD.low_frame, hlow] at hf
    omega

theorem boot_heldBy (p : Nat) : heldBy (boot img tag table ram) p f = 0 := by
  by_cases hp : p = 0
  swap
  · rw [heldBy_none]
    show (if p = 0 then some (initTask img) else none) = none
    rw [if_neg hp]
  · have hcur := heldBy_current (boot_sound img tag table ram).holds
    rw [show (boot img tag table ram).current = 0 from rfl, show (boot img tag table ram).cr3 = img.directory from rfl] at hcur
    rw [hp, hcur]
    exact held_empty fun d hd => boot_absent img tag table ram hd

/-- The first 4 MiB are counted. -/
theorem boot_first (hf : f < 1024) : (boot img tag table ram).bitmap f ≠ 0 := fun hzero => by
  have hfree := (free_iff tag table (f := f) (by omega) (by rw [BITMAP_SIZE]; omega)).mp hzero
  omega

/-- **At boot the frames in use are counted.** -/
theorem boot_counted : Counted (boot img tag table ram) := by
  have htotal : ∀ f, total (Finset.range MAX_TASKS) (heldBy (boot img tag table ram)) f = 0 := fun f =>
    Finset.sum_eq_zero fun p _ => boot_heldBy p
  refine ⟨fun f => by rw [htotal]; exact Nat.zero_le _, fun f hf => ?_⟩
  have hlow := boot_refers hf
  rw [htotal, Nat.pos_iff_ne_zero]
  exact toNat_ne_zero.mpr (boot_first hlow)

end Boot

end Raampjes.Mm
