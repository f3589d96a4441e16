import Raampjes.Mm.Children

/-!
# The first programs, and the first fork

- `stale_boot`, `stale_paged`: directory entry 0 is not present after `init_mm` and still names the first page table; a
  new page table for it leaves nothing stale;
- `Machine.first`: the machine after the first `do_execve`, with a stack page and nothing else in the user half;
- `first_fork`: the first fork returns, as long as the counters are small, with what is free after it.
-/

namespace Raampjes.Mm

open Progs Refs Sched Runs

/-! ## Stale entries -/

section Stale

variable {m : Machine} {L : Layout} {T : Finset Nat} {a f t g : Nat}

/-- **A new page table** takes the place of a stale entry, and has none of its own. -/
theorem stale_paged (h : Holds m L) (ha : a < KERNEL_MEMORY) (hp : present (m.pde a) = false) (ht : t < 2 ^ 20)
    (hfresh : ¬ Reaches m t) (hg : g ≠ 0) :
    stale (m.paged a f t).ram m.cr3 g + (if frameOf (m.pde a) = g then 1 else 0) = stale m.ram m.cr3 g := by
  have hd := dirIndex_user ha
  have hnc : t ≠ m.cr3 := fun he => hfresh (he ▸ h.reaches_cr3)
  have hdir : ∀ d, (m.paged a f t).ram m.cr3 d = _ := fun d => paged_dir hnc ht d
  have hself := hdir (dirIndex a)
  rw [if_pos rfl] at hself
  have htab : ∀ d, d < 768 → d ≠ dirIndex a → present (m.ram m.cr3 d) = true →
      (m.paged a f t).ram (frameOf (m.ram m.cr3 d)) = m.ram (frameOf (m.ram m.cr3 d)) := fun d hd hne hpd =>
    paged_of_ne hnc ht (ne_of_role (h.curSpace.table d hd hpd) h.current_role (by simp)) fun he =>
      hfresh (he ▸ h.reaches_table hd hpd)
  have hpages : stalePages (m.paged a f t).ram m.cr3 g = stalePages m.ram m.cr3 g := by
    apply Finset.filter_congr
    intro n hn
    have hdn := pageNumber_dir hn
    by_cases hat : dirIndex (n * PAGE_SIZE) = dirIndex a
    · -- the new table names its page and frame 0
      rw [pageOf, hat, hself, frameOf_mkEntry ht (by decide), paged_table hnc ht (pageTableIndex_lt _)]
      have hp' : present (m.ram m.cr3 (dirIndex a)) = false := hp
      refine iff_of_false ?_ (by simp [hp'])
      rintro ⟨_, hq, hname⟩
      split at hq
      · rw [present_mkEntry] at hq
        exact absurd hq (by decide)
      · rename_i hne
        rw [if_neg hne] at hname
        exact hg (hname.symm.trans (by decide))
    · rw [pageOf, pageOf, hdir, if_neg hat]
      refine and_congr_right fun hpd => ?_
      rw [htab _ hdn hat hpd]
  have htables := card_filter_change (s := Finset.range 768) (a := dirIndex a)
    (P := fun d => present (m.ram m.cr3 d) = false ∧ frameOf (m.ram m.cr3 d) = g)
    (Q := fun d => present ((m.paged a f t).ram m.cr3 d) = false ∧ frameOf ((m.paged a f t).ram m.cr3 d) = g)
    (Finset.mem_range.mpr hd) fun d _ hne => by rw [hdir, if_neg hne]
  have hgone : ¬ (present ((m.paged a f t).ram m.cr3 (dirIndex a)) = false ∧
      frameOf ((m.paged a f t).ram m.cr3 (dirIndex a)) = g) := by
    rw [hself, present_mkEntry]
    simp
  have hthere : (present (m.ram m.cr3 (dirIndex a)) = false ∧ frameOf (m.ram m.cr3 (dirIndex a)) = g) ↔
      frameOf (m.pde a) = g := and_iff_right hp
  simp only [hgone, hthere, if_false, Nat.add_zero] at htables
  rw [stale, stale, hpages, staleTables, staleTables]
  omega

/-- **What the first directory still names**: its entry 0 was the identity map of the first 4 MiB. -/
theorem stale_boot (img : Image) (tag : MmapTag) (table : FrameTable) (ram : Nat → Nat → Word) (hg : g ≠ 0) :
    stale (boot img tag table ram).ram img.directory g = if g = img.table then 1 else 0 := by
  have himg := img.table_lt
  have hpages : stalePages (boot img tag table ram).ram img.directory g = ∅ := by
    refine Finset.filter_eq_empty_iff.mpr fun n hn hc => ?_
    rw [boot_absent img tag table ram (pageNumber_dir hn)] at hc
    exact Bool.false_ne_true hc.1
  have htables : (staleTables (boot img tag table ram).ram img.directory g).card = if g = img.table then 1 else 0 := by
    refine card_filter_single (a := 0) (Finset.mem_range.mpr (by decide)) fun d hd => ?_
    have hlt := Finset.mem_range.mp hd
    have hword := boot_directory img tag table ram d
    rw [if_neg (by omega), if_neg (c := d = 768) (by omega)] at hword
    rw [boot_absent img tag table ram hlt, hword]
    by_cases h0 : d = 0
    · rw [if_pos h0, frameOf_absent, frameOf_mkEntry (by omega) (by decide)]
      simp only [true_and, h0, eq_comm]
    · rw [if_neg h0, show frameOf 0#32 = 0 by decide]
      simp only [true_and, h0, false_and, iff_false]
      exact hg.symm
  rw [stale, hpages, Finset.card_empty, Nat.zero_add, htables]

/-- No frame has more references than its counter says. -/
theorem Counted.held_le (hc : Counted m) (h : Holds m L) : held m.ram m.cr3 g ≤ (m.bitmap g).toNat := by
  have hone : heldBy m m.current g ≤ total (Finset.range MAX_TASKS) (heldBy m) g :=
    Finset.single_le_sum (f := fun p => heldBy m p g) (fun _ _ => Nat.zero_le _) (task_mem h h.curTask)
  rw [heldBy_current h] at hone
  exact hone.trans (hc.le g)

/-- Frame 0 belongs to the kernel. -/
theorem Counted.held_zero (hc : Counted m) (h : Holds m L) (hle : m.bitmap 0 ≤ 1) : held m.ram m.cr3 0 = 0 := by
  have hrefers : KernelRefers m 0 := by
    refine Or.inl ⟨KERNEL_MEMORY, le_refl _, by decide, ?_⟩
    rw [h.curDir.walk_low h (le_refl _) (by decide)]
    rfl
  have hone : heldBy m m.current 0 ≤ total (Finset.range MAX_TASKS) (heldBy m) 0 :=
    Finset.single_le_sum (f := fun p => heldBy m p 0) (fun _ _ => Nat.zero_le _) (task_mem h h.curTask)
  have hlt := hc.lt 0 hrefers
  have hle' : (m.bitmap 0).toNat ≤ 1 := UInt8.le_iff_toNat_le.mp hle
  rw [heldBy_current h] at hone
  omega

end Stale

/-! ## The first program -/

/-- The machine after the first program is loaded. -/
def Machine.first (m : Machine) (f t : Nat) : Machine := (m.stacked f t).setCur m.cur.started

section First

variable {alloc : Kernel Nat} {m : Machine} {L : Layout} {T : Finset Nat} {f t : Nat} (hS : Starts m f t)

include hS

/-- The stack page. -/
theorem Starts.first_page (h : Holds m L) : HasPage (m.first f t).ram m.cr3 767 1023 ∧
    pteAt (m.first f t).ram m.cr3 767 1023 = mkEntry f 7#32 := by
  have hdir : (m.first f t).ram m.cr3 767 = mkEntry t 7#32 :=
    paged_dir (a := KERNEL_MEMORY - PAGE_SIZE) (hS.table_ne h) hS.table_lt 767
  have hword : (m.first f t).ram t 1023 = mkEntry f 7#32 :=
    paged_table (a := KERNEL_MEMORY - PAGE_SIZE) (hS.table_ne h) hS.table_lt (by decide)
  have hframe : frameOf (mkEntry t 7#32) = t := frameOf_mkEntry hS.table_lt (by decide)
  refine ⟨⟨by decide, by decide, ?_, ?_⟩, ?_⟩
  · rw [hdir]
    simp
  · rw [hdir, hframe, hword]
    simp
  · rw [pteAt, hdir, hframe, hword]

/-- The layout holds, and the references are counted. -/
theorem Starts.stacked_sound (h : Sound m L ∅) (hc : Counted m) (hno : present (m.ram m.cr3 767) = false) :
    ∃ L' : Layout, Sound (m.stacked f t) L' ∅ ∧ L'.pt1 = L.pt1 ∧ L'.ktab = L.ktab ∧ Counted (m.stacked f t) := by
  have hA1 : ∀ f, Hands allocUnreferenced (m.setCount f 1) := fun f => hands_unreferenced _
  have hF := @Starts.filled m L f t hS hno
  obtain ⟨h', hl⟩ := hF.sound h (by decide) plain_userRw hA1
  have hpage : ¬ HasPage m.ram m.cr3 (dirIndex (KERNEL_MEMORY - PAGE_SIZE)) (pageTableIndex (KERNEL_MEMORY - PAGE_SIZE)) := by
    rintro ⟨_, _, hp, _⟩
    exact absurd (hp.symm.trans hno) (by decide)
  exact ⟨_, h', hl.pt1, hl.ktab, hF.counted h hc (by decide) plain_userRw hA1 hpage⟩

theorem Starts.sound_first (h : Sound m L ∅) (hc : Counted m) (hno : present (m.ram m.cr3 767) = false) :
    ∃ L' : Layout, Sound (m.first f t) L' ∅ ∧ L'.pt1 = L.pt1 ∧ L'.ktab = L.ktab ∧ Counted (m.first f t) := by
  obtain ⟨L', h', hpt1, hktab, hc'⟩ := hS.stacked_sound h hc hno
  have hcur : (m.stacked f t).cur = m.cur := rfl
  have hsame : SameTasks (m.stacked f t) (m.first f t) := sameTasks_setCur h'.holds.cur (by rw [hcur]; rfl)
  obtain ⟨h'', hl'⟩ := h'.retask hsame rfl
  exact ⟨L', h'', hpt1, hktab, hc'.local h'.holds h''.holds hl' ⟨fun _ _ => rfl, fun _ _ _ _ _ => rfl⟩ (Balanced.refl _ _)⟩

theorem Starts.room (h : Holds m L) : (freeFrames m).card ≤ (freeFrames (m.first f t)).card + 2 :=
  paged_room (a := KERNEL_MEMORY - PAGE_SIZE) (hS.table_ne h)

/-- **A program without segments starts** where no user memory is, with any allocator that serves. -/
theorem Starts.blank_step (hA : Serves alloc) (h : Sound m L T) (hidle : ∀ g, m.bitmap g = 0 → ¬ Reaches m g)
    (hrun : m.cur.state = .running) (hno : ∀ d, d < 768 → present (m.ram m.cr3 d) = false) :
    step alloc m (.execve (some blankElf)) = some (m.first f t, []) := by
  have hexec := doExecve_blank h hno (hA.takes _ _ _ hS.frame) hS.fresh.2.2.1 (hA.hands _ (@idle_setCount _ f hidle))
    (hA.takes _ _ _ hS.table)
  exact step_ok.mpr ⟨by simp [Act.enabled, hrun], (bind_ok _ _ _).mpr ⟨_, _, hexec, pure_ok.mpr ⟨rfl, rfl⟩⟩⟩

end First

section Boot

variable {img : Image} {tag : MmapTag} {table : FrameTable} {ram : Nat → Nat → Word} {f t g : Nat}
  (hS : Starts (boot img tag table ram) f t)

include hS

theorem Starts.stale_first (hg : g ≠ 0) : stale ((boot img tag table ram).first f t).ram img.directory g =
    if g = img.table then 1 else 0 := by
  have h := (boot_sound img tag table ram).holds
  obtain ⟨_, _, _, _, _, hnt, _⟩ := hS.fresh
  have hpde : (boot img tag table ram).pde (KERNEL_MEMORY - PAGE_SIZE) = 0#32 := by
    have hword := boot_directory img tag table ram 767
    rw [if_neg (by decide), if_neg (by decide), if_neg (by decide)] at hword
    exact hword
  have hpaged := @stale_paged _ _ (KERNEL_MEMORY - PAGE_SIZE) f t g h (by decide) (by rw [hpde]; decide) hS.table_lt hnt hg
  rw [hpde, if_neg (fun he => hg (he.symm.trans (by decide))), Nat.add_zero] at hpaged
  exact hpaged.trans (stale_boot img tag table ram hg)

theorem Starts.first_sound : ∃ L : Layout, Sound ((boot img tag table ram).first f t) L ∅ ∧
    L.pt1 = img.table ∧ L.ktab = none ∧ Counted ((boot img tag table ram).first f t) :=
  hS.sound_first (boot_sound img tag table ram) boot_counted (boot_absent img tag table ram (by decide))

theorem Starts.first_free (hfree : Finset.Ico 2000 2016 ⊆ freeFrames (boot img tag table ram)) :
    14 ≤ (freeFrames ((boot img tag table ram).first f t)).card := by
  have hroom := hS.room (boot_sound img tag table ram).holds
  have hcard := Finset.card_le_card hfree
  have hico : (Finset.Ico 2000 2016).card = 16 := by decide
  omega

/-- The counters are small. -/
theorem Starts.first_le_one (h : ∀ i, table.counter i ≤ 1) : ((boot img tag table ram).first f t).bitmap g ≤ 1 :=
  paged_le_one (a := KERNEL_MEMORY - PAGE_SIZE) (hS.table_ne (boot_sound img tag table ram).holds) fun g => counter_le_one tag h g

/-- **The first program.** -/
theorem Starts.first_step {alloc : Kernel Nat} (hA : Serves alloc) :
    step alloc (boot img tag table ram) (.execve (some blankElf)) = some ((boot img tag table ram).first f t, []) :=
  hS.blank_step hA (boot_sound img tag table ram) (boot_counted.idle (boot_sound img tag table ram).holds) rfl fun _ hd =>
    boot_absent img tag table ram hd

end Boot

/-! ## The first fork -/

/-- A fork of the machine `s` by the first task, whose child in slot 1 runs in `m`. -/
structure FirstFork (alloc : Kernel Nat) (s : Machine) (L : Layout) (m1 : Machine) (L1 : Layout) (m2 : Machine) (L2 : Layout)
    (K a f b D : Nat) (m : Machine) : Prop where
  sound : Sound s L ∅
  slot : emptySlot s = 1
  pages : ForkPages alloc s L m1 L1 m2 L2 K a f b D
  eq : m = m2.forked D 1 (s.cur.child a b 1)
  counted : Counted m
  free : 8 ≤ (freeFrames m).card
  step : Mm.step alloc s .fork = some (m, [])

section FirstFork

variable {alloc : Kernel Nat} {s m m1 m2 : Machine} {L L1 L2 : Layout} {K a f b D : Nat}
  (hF : FirstFork alloc s L m1 L1 m2 L2 K a f b D m)

include hF

theorem FirstFork.forked : Forked s L m (L2.withTask 1 D f) 1 (s.cur.child a b 1) := by
  have h0 : emptySlot s ≠ 0 := by
    rw [hF.slot]
    decide
  have hforked := hF.pages.forked hF.sound h0
  rw [hF.slot, ← hF.eq] at hforked
  exact hforked

theorem FirstFork.sound' : Sound m (L2.withTask 1 D f) ∅ := by
  have h0 : emptySlot s ≠ 0 := by
    rw [hF.slot]
    decide
  have hs := hF.pages.sound h0
  rw [hF.slot] at hs
  rw [hF.eq]
  exact hs

theorem FirstFork.cur : m.cur = s.cur.child a b 1 := by
  have hforked := hF.forked
  rw [Machine.cur, hforked.tasks, hforked.current, Function.update_self, Option.getD_some]

/-- The child's user half names what the parent's did. -/
theorem FirstFork.names : SameNames s.ram s.cr3 m.ram m.cr3 := by
  have hnames := (hF.forked.names hF.sound.holds).2
  rw [← hF.forked.cr3] at hnames
  exact hnames

end FirstFork

/-- The first fork takes slot 1. -/
theorem emptySlot_one {m : Machine} (h0 : (m.tasks 0).isSome) (h1 : m.tasks 1 = none) : emptySlot m = 1 := by
  have hrange : List.range MAX_TASKS = 0 :: 1 :: (List.range MAX_TASKS).drop 2 := by decide
  rw [emptySlot, hrange, List.find?_cons_of_neg (by rw [Option.isNone_eq_false_iff.mpr h0]; decide),
    List.find?_cons_of_pos (by rw [h1]; rfl), Option.getD_some]

/-- **The first fork**, when the counters are small and the frames of `S` alone have stale names. -/
theorem first_fork {alloc : Kernel Nat} {s : Machine} {L : Layout} {S : Finset Nat} (hA : Serves alloc) (h : Sound s L ∅)
    (hc : Counted s) (hrun : s.cur.state = .running) (hslot : emptySlot s = 1) (hle : ∀ g, s.bitmap g ≤ 1)
    (hstale : ∀ g, g ≠ 0 → stale s.ram s.cr3 g ≤ if g ∈ S then 1 else 0) (hfree : 11 + S.card ≤ (freeFrames s).card) :
    ∃ m1 L1 m2 L2 K a fr b D m, FirstFork alloc s L m1 L1 m2 L2 K a fr b D m := by
  have h0 : emptySlot s ≠ 0 := by
    rw [hslot]
    decide
  obtain ⟨m1, L1, m2, L2, K, a, fr, b, D, hF, hc2, hcounters, hroom, hr⟩ := doFork_returns hA h hc h0 (by omega)
  have hheld : ∀ g, held s.ram s.cr3 g ≤ 1 := fun g => (hc.held_le h.holds).trans (UInt8.le_iff_toNat_le.mp (hle g))
  have hcount : ∀ g, (m2.bitmap g).toNat ≤ 1 := by
    intro g
    rcases hcounters g with h2 | h2
    · rw [h2]
      decide
    · rw [h2]
      exact UInt8.le_iff_toNat_le.mp (hle g)
  have hsmall : ∀ g, g ≠ 0 → stale s.ram s.cr3 g ≤ 1 := by
    intro g hg
    have h1 := hstale g hg
    split at h1 <;> omega
  have hcounted := hF.counted h h0 hc2 (hc.held_zero h.holds (hle 0)) fun g hg => by
    have h1 := hheld g
    have h2 := hcount g
    have h3 := hsmall g hg
    omega
  rw [hslot] at hcounted hr
  -- a frame that is free before is named by nothing but stale entries
  have hkept : freeFrames m2 \ S ⊆ freeFrames (m2.forked D 1 (s.cur.child a b 1)) := by
    intro g hg
    obtain ⟨hg, hne⟩ := Finset.mem_sdiff.mp hg
    obtain ⟨hlt, hz⟩ := Finset.mem_filter.mp hg
    refine Finset.mem_filter.mpr ⟨hlt, ?_⟩
    have hb := @ForkPages.bitmap alloc _ m1 m2 L L1 L2 K a fr b D g hF h h0
    rw [hslot] at hb
    rw [hb, hz]
    by_cases hg0 : g = 0
    · rw [if_pos hg0]
      rfl
    · have hzero : s.bitmap g = 0 := by
        rcases hcounters g with h2 | h2
        · rw [hz] at h2
          exact absurd h2 (by decide)
        · exact h2.symm.trans hz
      have h1 : held s.ram s.cr3 g ≤ (s.bitmap g).toNat := hc.held_le h.holds
      have h2 := hstale g hg0
      rw [if_neg hne] at h2
      rw [hzero] at h1
      rw [if_neg hg0, Nat.le_zero.mp h1, Nat.le_zero.mp h2]
      rfl
  have hcard := Finset.card_le_card hkept
  have hsub := Finset.le_card_sdiff S (freeFrames m2)
  exact ⟨m1, L1, m2, L2, K, a, fr, b, D, _, h, hslot, hF, rfl, hcounted, by omega, step_ok.mpr
    ⟨by simp [Act.enabled, hrun], hr⟩⟩

section Exists

variable {img : Image} {tag : MmapTag} {table : FrameTable} {ram : Nat → Nat → Word} {f t : Nat} {alloc : Kernel Nat}

/-- The first program forks. -/
theorem Starts.first_fork (hS : Starts (boot img tag table ram) f t) (hA : Serves alloc) (h1 : ∀ i, table.counter i ≤ 1)
    (hfree : Finset.Ico 2000 2016 ⊆ freeFrames (boot img tag table ram)) :
    ∃ L m1 L1 m2 L2 K a fr b D m, FirstFork alloc ((boot img tag table ram).first f t) L m1 L1 m2 L2 K a fr b D m := by
  obtain ⟨L, h, _, _, hc⟩ := hS.first_sound
  have hroom := hS.first_free hfree
  refine ⟨L, Mm.first_fork (S := {img.table}) hA h hc rfl (emptySlot_one rfl rfl) (fun g => hS.first_le_one h1) (fun g hg => ?_) ?_⟩
  · simp only [Finset.mem_singleton]
    exact (hS.stale_first hg).le
  · rw [Finset.card_singleton]
    omega

/-- The kernel forks before any program starts. -/
theorem boot_fork (hA : Serves alloc) (h1 : ∀ i, table.counter i ≤ 1)
    (hfree : Finset.Ico 2000 2016 ⊆ freeFrames (boot img tag table ram)) :
    ∃ m1 L1 m2 L2 K a fr b D m, FirstFork alloc (boot img tag table ram) (bootLayout img) m1 L1 m2 L2 K a fr b D m := by
  have hcard := Finset.card_le_card hfree
  have hico : (Finset.Ico 2000 2016).card = 16 := by decide
  refine Mm.first_fork (S := {img.table}) hA (boot_sound img tag table ram) boot_counted rfl (emptySlot_one rfl rfl)
    (fun g => counter_le_one tag h1 g) (fun g hg => ?_) ?_
  · simp only [Finset.mem_singleton]
    exact (stale_boot img tag table ram hg).le
  · rw [Finset.card_singleton]
    omega

end Exists

end Raampjes.Mm
