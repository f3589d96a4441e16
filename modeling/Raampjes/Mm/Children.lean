import Raampjes.Mm.NewPages

/-!
# Forks and the frame table

- `NewPage.refers`, `NewPage.counted`: a page of the kernel is one more reference;
- `stale`: entries that are not present and still name a frame; `ForkPages.counter`: `inc_phys_refs` counts them like the
  references of the child;
- `ForkPages.counted`: the counters are at least the references after a fork, as long as none overflows;
- `doFork_returns`: a fork returns when three frames are free.
-/

namespace Raampjes.Mm

open Progs Refs Sched

/-! ## A page of the kernel -/

section NewPage

variable {alloc : Kernel Nat} {m m' : Machine} {L L' : Layout} {T : Finset Nat} {K k f g : Nat}

/-- The words of the kernel's page table: those that were there, and the new one. -/
theorem NewPage.slots (hN : NewPage alloc m L m' K k f) (h : Holds m L) (hA1 : Hands alloc (m.setCount f 1)) {j : Nat}
    (hj : j < 1024) (hne : j ≠ k) (hp : present (m'.ram K j) = true) :
    L.ktab = some K ∧ m'.ram K j = m.ram K j := by
  cases hN with
  | slot _ _ _ hK => exact ⟨hK, setWord_of_ne _ _ _ _ (Or.inr hne)⟩
  | table _ _ hK hf ht =>
    obtain ⟨_, _, _, hfresh⟩ := hA1.take ht
    have hKc : K ≠ (m.setCount f 1).cr3 := fun he => hfresh (he ▸ (h.setCount f 1).reaches_cr3)
    rw [Machine.withTable, setWord_of_ne _ _ _ _ (Or.inr hne), addTable_eq hKc, setWord_of_ne _ _ _ _ (Or.inl hKc),
      setCount_ram, setFrame_self, filled_lt hj] at hp
    exact absurd hp (by decide)

/-- The counters of the new frames are one, the others as they were. -/
theorem NewPage.bitmap (hN : NewPage alloc m L m' K k f) (hA : Hands alloc m) (hA1 : Hands alloc (m.setCount f 1)) :
    m.bitmap f = 0 ∧ (L.ktab = none → m.bitmap K = 0 ∧ K ≠ f) ∧
      ∀ g, m'.bitmap g = if g = f ∨ (L.ktab = none ∧ g = K) then 1 else m.bitmap g := by
  cases hN with
  | slot _ _ _ hK hk hf =>
    obtain ⟨_, hzero, _, _⟩ := hA.take hf
    refine ⟨hzero, fun hnone => absurd (hK.symm.trans hnone) (by simp), fun g => ?_⟩
    rw [Machine.withPage, setWord_bitmap]
    by_cases hg : g = f
    · rw [hg, setCount_self, if_pos (Or.inl rfl)]
    · rw [setCount_of_ne _ _ _ hg, if_neg (by simp [hg, hK])]
  | table _ _ hK hf ht =>
    obtain ⟨_, hzero, _, _⟩ := hA.take hf
    obtain ⟨_, hKzero, _, _⟩ := hA1.take ht
    have hne : K ≠ f := by
      rintro rfl
      rw [setCount_self] at hKzero
      cases hKzero
    rw [setCount_of_ne _ _ _ hne] at hKzero
    refine ⟨hzero, fun _ => ⟨hKzero, hne⟩, fun g => ?_⟩
    show Function.update (Function.update m.bitmap f 1) K 1 g = _
    by_cases hgK : g = K
    · rw [hgK, Function.update_self, if_pos (Or.inr ⟨hK, rfl⟩)]
    · rw [Function.update_of_ne hgK]
      by_cases hg : g = f
      · rw [hg, Function.update_self, if_pos (Or.inl rfl)]
      · rw [Function.update_of_ne hg, if_neg (by simp [hg, hgK])]

/-- **The kernel refers to one page more**, and perhaps to its page table. -/
theorem NewPage.refers (hN : NewPage alloc m L m' K k f) (h : Sound m L T) (hA : Hands alloc m)
    (hA1 : Hands alloc (m.setCount f 1)) (hr : KernelRefers m' g) :
    KernelRefers m g ∨ g = f ∨ (L.ktab = none ∧ g = K) := by
  obtain ⟨L', hp, hs⟩ := hN.kernelPage h hA hA1
  have hD := h.holds.curDir
  have hD' := hs.holds.curDir
  have hcr3 : m'.cr3 = m.cr3 := hp.untouched.2.2
  rw [KernelRefers, hcr3] at hr
  rw [hcr3] at hD'
  have hrest : ∀ d, 770 ≤ d → d < 1023 → present (m'.ram m.cr3 d) = false := fun d hge hlt => by
    rw [hD'.rest d hge hlt]
    rfl
  rcases hr with ⟨a, hge, hlt, hw⟩ | ⟨d, hge, hlt, hpd, hf⟩
  · have hi := pageTableIndex_lt a
    have h768 : 768 ≤ dirIndex a := by
      rw [KERNEL_MEMORY] at hge
      rw [dirIndex]
      omega
    have hlast : dirIndex a < 1023 := by
      rw [dirIndex]
      omega
    obtain ⟨hpd, hq, hf⟩ := walk_eq_some.mp hw
    by_cases hlow : dirIndex a = 768
    · refine Or.inl (Or.inl ⟨a, hge, hlt, walk_eq_some.mpr ?_⟩)
      have hl := h.holds.low _ hi
      have hl' := hs.holds.low _ hi
      rw [hlow, hD'.low_frame, hl'.2] at hf
      rw [hlow, hD.low_frame]
      exact ⟨hD.low, hl.1, hl.2.trans hf⟩
    · by_cases hslot : dirIndex a = 769
      · rw [hslot, (hD'.ktab K hp.ktab).2.1] at hq hf
        by_cases hk : pageTableIndex a = k
        · rw [hk, hp.word, frameOf_mkEntry hp.frame_lt (by decide)] at hf
          exact Or.inr (Or.inl hf.symm)
        · obtain ⟨hK, hword⟩ := hN.slots h.holds hA1 hi hk hq
          rw [hword] at hq hf
          refine Or.inl (Or.inl ⟨a, hge, hlt, walk_eq_some.mpr ?_⟩)
          rw [hslot, (hD.ktab K hK).2.1]
          exact ⟨(hD.ktab K hK).1, hq, hf⟩
      · rw [hrest _ (by omega) hlast] at hpd
        cases hpd
  · by_cases hlow : d = 768
    · subst hlow
      refine Or.inl (Or.inr ⟨768, hge, hlt, hD.low, ?_⟩)
      rw [← hf, hD.low_frame, hD'.low_frame, hp.pt1]
    · by_cases hslot : d = 769
      · subst hslot
        rw [(hD'.ktab K hp.ktab).2.1] at hf
        cases hK : L.ktab with
        | none => exact Or.inr (Or.inr ⟨rfl, hf.symm⟩)
        | some K' =>
          obtain ⟨rfl, _⟩ := hp.old K' hK
          exact Or.inl (Or.inr ⟨769, hge, hlt, (hD.ktab _ hK).1, (hD.ktab _ hK).2.1.trans hf⟩)
      · rw [hrest d (by omega) hlt] at hpd
        cases hpd

/-- The user halves do not change. -/
theorem KernelPage.heldBy {L' : Layout} (hp : KernelPage m L m' L' K k f) (h : Holds m L) (h' : Holds m' L') (p : Nat) :
    heldBy m' p = heldBy m p := by
  have htasks := congrFun hp.untouched.1 p
  cases ht : m.tasks p with
  | none => rw [heldBy_none ht, heldBy_none (htasks.trans ht)]
  | some t =>
    rw [heldBy_of h ht, heldBy_of h' (htasks.trans ht), hp.dir]
    funext g
    apply held_congr
    intro d hd
    have hTask := h.task p t ht
    refine ⟨hp.rest _ d (h.reaches_dir ht) (by rw [hTask.role]; simp) (Or.inr (by omega)), fun hpd i _ => ?_⟩
    have hrole := hTask.spaceOk.table d hd hpd
    exact hp.rest _ i (h.reaches_window ht (by omega) hpd) (by rw [hrole]; simp)
      (Or.inl (ne_of_role hrole h.current_role (by simp)))

theorem NewPage.counted (hN : NewPage alloc m L m' K k f) (h : Sound m L T) (hA : Hands alloc m)
    (hA1 : Hands alloc (m.setCount f 1)) (hc : Counted m) : Counted m' := by
  obtain ⟨L', hp, hs⟩ := hN.kernelPage h hA hA1
  obtain ⟨hzero, hKzero, hbitmap⟩ := hN.bitmap hA hA1
  have htotal : ∀ g, total (Finset.range MAX_TASKS) (heldBy m') g = total (Finset.range MAX_TASKS) (heldBy m) g :=
    fun g => Finset.sum_congr rfl fun p _ => by rw [hp.heldBy h.holds hs.holds]
  -- nothing refers to the new frames
  have hnew : ∀ g, (g = f ∨ (L.ktab = none ∧ g = K)) → total (Finset.range MAX_TASKS) (heldBy m) g = 0 := by
    intro g hg
    have hg0 : m.bitmap g = 0 := by
      rcases hg with rfl | ⟨hnone, rfl⟩
      · exact hzero
      · exact (hKzero hnone).1
    have := hc.le g
    rw [hg0] at this
    exact Nat.le_zero.mp this
  refine ⟨fun g => ?_, fun g hr => ?_⟩
  · rw [htotal, hbitmap]
    split
    · rw [hnew g ‹_›]
      exact Nat.zero_le _
    · exact hc.le g
  · rw [htotal, hbitmap]
    split
    · rw [hnew g ‹_›]
      decide
    · rename_i hg
      exact hc.lt g ((hN.refers h hA hA1 hr).resolve_right hg)

end NewPage

/-! ## Names -/

/-- The pages of a present table that are not present and still name the frame `f`. -/
def stalePages (ram : Nat → Nat → Word) (D f : Nat) : Finset Nat :=
  (Finset.range (KERNEL_MEMORY / PAGE_SIZE)).filter fun n => present (ram D (dirIndex (n * PAGE_SIZE))) = true ∧
    present (ram (frameOf (ram D (dirIndex (n * PAGE_SIZE)))) (pageTableIndex (n * PAGE_SIZE))) = false ∧
    pageOf ram D (dirIndex (n * PAGE_SIZE)) (pageTableIndex (n * PAGE_SIZE)) = f

/-- The page tables that are not present, and whose entries still name the frame `f`. -/
def staleTables (ram : Nat → Nat → Word) (D f : Nat) : Finset Nat :=
  (Finset.range 768).filter fun d => present (ram D d) = false ∧ frameOf (ram D d) = f

/-- How often entries of the user half that are not present name the frame `f`. -/
def stale (ram : Nat → Nat → Word) (D f : Nat) : Nat := (stalePages ram D f).card + (staleTables ram D f).card

/-- The user half of `D'` names what that of `D` does. -/
def SameNames (ram : Nat → Nat → Word) (D : Nat) (ram' : Nat → Nat → Word) (D' : Nat) : Prop :=
  ∀ d, d < 768 → present (ram' D' d) = present (ram D d) ∧ frameOf (ram' D' d) = frameOf (ram D d) ∧
    (present (ram D d) = true → ∀ i, i < 1024 → ram' (frameOf (ram D d)) i = ram (frameOf (ram D d)) i)

section Names

variable {m : Machine} {ram ram' : Nat → Nat → Word} {D D' f : Nat}

theorem pageNumber_dir {n : Nat} (hn : n ∈ Finset.range (KERNEL_MEMORY / PAGE_SIZE)) : dirIndex (n * PAGE_SIZE) < 768 :=
  dirIndex_user (pageNumber_user (Finset.mem_range.mp hn))

theorem SameNames.held (h : SameNames ram D ram' D') : held ram' D' f = held ram D f := by
  have hpages : pagesOf ram' D' f = pagesOf ram D f := by
    apply Finset.filter_congr
    intro n hn
    obtain ⟨h1, h2, h3⟩ := h _ (pageNumber_dir hn)
    rw [walk_eq_some, walk_eq_some, h1, h2]
    refine and_congr_right fun hp => ?_
    rw [h3 hp _ (pageTableIndex_lt _)]
  have htables : tablesOf ram' D' f = tablesOf ram D f := by
    apply Finset.filter_congr
    intro d hd
    obtain ⟨h1, h2, _⟩ := h d (Finset.mem_range.mp hd)
    rw [h1, h2]
  rw [Mm.held, Mm.held, hpages, htables]

theorem SameNames.stale (h : SameNames ram D ram' D') : stale ram' D' f = stale ram D f := by
  have hpages : stalePages ram' D' f = stalePages ram D f := by
    apply Finset.filter_congr
    intro n hn
    obtain ⟨h1, h2, h3⟩ := h _ (pageNumber_dir hn)
    rw [pageOf, pageOf, h1, h2]
    refine and_congr_right fun hp => ?_
    rw [h3 hp _ (pageTableIndex_lt _)]
  have htables : staleTables ram' D' f = staleTables ram D f := by
    apply Finset.filter_congr
    intro d hd
    obtain ⟨h1, h2, _⟩ := h d (Finset.mem_range.mp hd)
    rw [h1, h2]
  rw [Mm.stale, Mm.stale, hpages, htables]

theorem SameNames.hasPage (h : SameNames ram D ram' D') {d i : Nat} : HasPage ram' D' d i ↔ HasPage ram D d i := by
  refine and_congr_right fun hd => and_congr_right fun hi => ?_
  obtain ⟨h1, h2, h3⟩ := h d hd
  rw [h1, h2]
  exact and_congr_right fun hp => by rw [h3 hp i hi]

theorem SameNames.pageOf (h : SameNames ram D ram' D') {d i : Nat} (hp : HasPage ram D d i) :
    pageOf ram' D' d i = pageOf ram D d i := by
  obtain ⟨hd, hi, hp, _⟩ := hp
  obtain ⟨_, h2, h3⟩ := h d hd
  rw [Mm.pageOf, Mm.pageOf, h2, h3 hp i hi]

theorem named_eq (hf : f ≠ 0) {a : Nat} : m.named a = f ↔ present (m.pde a) = true ∧ frameOf (m.pte a) = f := by
  rw [Machine.named]
  cases present (m.pde a) with
  | true => simp
  | false => simpa using hf.symm

/-- The pages that `inc_phys_refs` counts: the present ones and the others. -/
theorem namings_pages (hf : f ≠ 0) : namings m 0 (KERNEL_MEMORY / PAGE_SIZE) f =
    (pagesOf m.ram m.cr3 f).card + (stalePages m.ram m.cr3 f).card := by
  rw [namings, if_neg hf, ← Finset.card_filter_add_card_filter_not
    (fun n => present (m.pte (n * PAGE_SIZE)) = true), Finset.filter_filter, Finset.filter_filter]
  refine congrArg₂ (· + ·) (congrArg Finset.card ?_) (congrArg Finset.card ?_)
  · apply Finset.filter_congr
    intro n _
    rw [Nat.zero_add, named_eq hf, walk_eq_some]
    exact ⟨fun h => ⟨h.1.1, h.2, h.1.2⟩, fun h => ⟨⟨h.1, h.2.2⟩, h.2.1⟩⟩
  · apply Finset.filter_congr
    intro n _
    rw [Nat.zero_add, named_eq hf, Bool.not_eq_true]
    exact ⟨fun h => ⟨h.1.1, h.2, h.1.2⟩, fun h => ⟨⟨h.1, h.2.2⟩, h.2.1⟩⟩

/-- The same for the page tables. -/
theorem namings_tables (hE : Env m) (hf : f ≠ 0) : namings m (window 0 / PAGE_SIZE) 768 f =
    (tablesOf m.ram m.cr3 f).card + (staleTables m.ram m.cr3 f).card := by
  have hwindow : ∀ d, (window 0 / PAGE_SIZE + d) * PAGE_SIZE = window d := by
    intro d
    rw [window, window, PAGE_SIZE]
    omega
  rw [namings, if_neg hf, ← Finset.card_filter_add_card_filter_not
    (fun d => present (m.ram m.cr3 d) = true), Finset.filter_filter, Finset.filter_filter]
  have hname : ∀ d, d < 768 → (m.named (window d) = f ↔ frameOf (m.ram m.cr3 d) = f) := by
    intro d hd
    rw [named_eq hf, hE.pte_window (by omega)]
    exact ⟨fun h => h.2, fun h => ⟨hE.pde_window (by omega), h⟩⟩
  refine congrArg₂ (· + ·) (congrArg Finset.card ?_) (congrArg Finset.card ?_)
  · apply Finset.filter_congr
    intro d hd
    rw [hwindow, hname d (Finset.mem_range.mp hd)]
    exact and_comm
  · apply Finset.filter_congr
    intro d hd
    rw [hwindow, hname d (Finset.mem_range.mp hd), Bool.not_eq_true]
    exact and_comm

/-- **`inc_phys_refs` counts what the user half names**, present or not. -/
theorem referred_bitmap (hE : Env m) : m.referred.bitmap f =
    m.bitmap f + UInt8.ofNat (if f = 0 then 0 else held m.ram m.cr3 f + stale m.ram m.cr3 f) := by
  show m.bitmap f + UInt8.ofNat (namings m 0 (KERNEL_MEMORY / PAGE_SIZE) f + namings m (window 0 / PAGE_SIZE) 768 f) = _
  by_cases hf : f = 0
  · rw [namings, namings, if_pos hf, if_pos hf, if_pos hf]
  · rw [if_neg hf, namings_pages hf, namings_tables hE hf, held, stale, Nat.add_add_add_comm]

end Names

/-! ## The counters after a fork -/

theorem Forked.names {m m' : Machine} {L L' : Layout} {p : Nat} {child : TaskStruct} (hF : Forked m L m' L' p child)
    (h : Holds m L) : SameNames m.ram m.cr3 m'.ram m.cr3 ∧ SameNames m.ram m.cr3 m'.ram (L'.dir p) := by
  have htable : ∀ d, d < 768 → present (m.ram m.cr3 d) = true →
      m'.ram (frameOf (m.ram m.cr3 d)) = m.ram (frameOf (m.ram m.cr3 d)) := by
    intro d hd hp
    have hrole := h.curSpace.table d hd hp
    exact hF.rest _ (h.reaches_table hd hp) (by rw [hrole]; simp) (ne_of_role hrole h.current_role (by simp))
  constructor
  · intro d hd
    rw [(hF.user d hd).1, present_cowEntry, frameOf_cowEntry]
    exact ⟨rfl, rfl, fun hp i _ => congrFun (htable d hd hp) i⟩
  · intro d hd
    rw [(hF.user d hd).2, present_cowEntry, frameOf_cowEntry]
    exact ⟨rfl, rfl, fun hp i _ => congrFun (htable d hd hp) i⟩

section Fork

variable {alloc : Kernel Nat} {m m1 m2 : Machine} {L L1 L2 : Layout} {K a f b D g : Nat}
  (hF : ForkPages alloc m L m1 L1 m2 L2 K a f b D)

include hF

/-- **The counters follow the child**, and the stale entries. -/
theorem ForkPages.bitmap (h : Sound m L ∅) (h0 : emptySlot m ≠ 0) :
    (m2.forked D (emptySlot m) (m.cur.child a b (emptySlot m))).bitmap g =
      m2.bitmap g + UInt8.ofNat (if g = 0 then 0 else held m.ram m.cr3 g + stale m.ram m.cr3 g) := by
  have hE : Env (m2.copied D) := (@forkMem_copied m2 m2 L2 K b D 0 (pure 0) hF.dirSound.holds hF.dirPage.ktab hF.dirPage.lt
    hF.dirPage.word hF.dirPage.frame_lt hF.dirPage.role).2
  have hnames := ((hF.forked h h0).names h.holds).1
  have hb := @referred_bitmap (m2.copied D) g hE
  have hheld : held (m2.copied D).ram m.cr3 g = held m.ram m.cr3 g := hnames.held
  have hstale : stale (m2.copied D).ram m.cr3 g = stale m.ram m.cr3 g := hnames.stale
  have hcr3 : (m2.copied D).cr3 = m.cr3 := hF.cr3
  rw [hcr3, hheld, hstale] at hb
  exact hb

/-- The kernel half of the child is the parent's. -/
theorem ForkPages.refers {p : Nat} {t : TaskStruct} (hr : KernelRefers (m2.forked D p t) g) : KernelRefers m2 g := by
  have hs2 := hF.dirSound.holds
  have hD := hs2.curDir
  obtain ⟨hnew, _, hfar⟩ := hF.words
  have hentry : ∀ d, 768 ≤ d → d < 1023 → (m2.copied D).ram D d = m2.ram m2.cr3 d := fun d hge hlt => by
    rw [hnew, filled_lt (by omega), childDir, if_neg (by omega), flagged_ge _ hge]
  have htable : ∀ d, 768 ≤ d → d < 1023 → present (m2.ram m2.cr3 d) = true →
      (m2.copied D).ram (frameOf (m2.ram m2.cr3 d)) = m2.ram (frameOf (m2.ram m2.cr3 d)) := by
    intro d hge hlt hp
    by_cases hlow : d = 768
    · rw [hlow, hD.low_frame]
      exact hfar _ hF.spare.noTable.low.symm (ne_of_role hs2.low_role hs2.current_role (by simp))
    · by_cases hslot : d = 769
      · rw [hslot, (hD.ktab K hF.dirPage.ktab).2.1]
        exact hfar _ (hF.spare.noTable.ktab K hF.dirPage.ktab).symm
          (ne_of_role (hs2.ktab_role K hF.dirPage.ktab) hs2.current_role (by simp))
      · rw [hD.rest d (by omega) hlt] at hp
        cases hp
  rcases hr with ⟨x, hge, hlt, hw⟩ | ⟨d, hge, hlt, hp, hf⟩
  · have h768 : 768 ≤ dirIndex x := by
      rw [KERNEL_MEMORY] at hge
      rw [dirIndex]
      omega
    have hlast : dirIndex x < 1023 := by
      rw [dirIndex]
      omega
    refine Or.inl ⟨x, hge, hlt, ?_⟩
    have hw' : walk (m2.copied D).ram D x = some g := hw
    obtain ⟨hp, hq, hf⟩ := walk_eq_some.mp hw'
    rw [hentry _ h768 hlast] at hp hq hf
    rw [htable _ h768 hlast hp] at hq hf
    exact walk_eq_some.mpr ⟨hp, hq, hf⟩
  · have hd := hentry d hge hlt
    have hp' : present ((m2.copied D).ram D d) = true := hp
    have hf' : frameOf ((m2.copied D).ram D d) = g := hf
    rw [hd] at hp' hf'
    exact Or.inr ⟨d, hge, hlt, hp', hf'⟩

/-- The references of the tasks after the fork: those of the child are the parent's. -/
theorem ForkPages.heldBy (h : Sound m L ∅) (h0 : emptySlot m ≠ 0) (p : Nat) :
    heldBy (m2.forked D (emptySlot m) (m.cur.child a b (emptySlot m))) p =
      if p = emptySlot m then held m.ram m.cr3 else heldBy m p := by
  have hfork := hF.forked h h0
  have hs := (hF.addTask h0).switch (p := emptySlot m) (Function.update_self ..)
  rw [show (L2.withTask (emptySlot m) D f).dir (emptySlot m) = D from Function.update_self ..] at hs
  have hs' : Holds (m2.forked D (emptySlot m) (m.cur.child a b (emptySlot m))) (L2.withTask (emptySlot m) D f) := hs.holds
  obtain ⟨hparent, hchild⟩ := hfork.names h.holds
  by_cases hp : p = emptySlot m
  · rw [if_pos hp, hp, heldBy_of hs' (by rw [hfork.tasks]; exact Function.update_self ..)]
    funext x
    exact hchild.held
  · rw [if_neg hp]
    have htask : (m2.forked D (emptySlot m) (m.cur.child a b (emptySlot m))).tasks p = m.tasks p := by
      rw [hfork.tasks, Function.update_of_ne hp]
    cases ht : m.tasks p with
    | none => rw [heldBy_none ht, heldBy_none (htask.trans ht)]
    | some t =>
      rw [heldBy_of h.holds ht, heldBy_of hs' (htask.trans ht), hfork.dir p hp]
      by_cases hcur : p = m.current
      · rw [hcur, ← h.holds.cr3]
        funext x
        exact hparent.held
      · have hTask := h.holds.task p t ht
        funext x
        apply held_congr
        intro d hd
        refine ⟨congrFun (hfork.rest _ (h.holds.reaches_dir ht) (by rw [hTask.role]; simp)
          (h.holds.cr3_ne_dir ht hcur)) d, fun hpd i _ => ?_⟩
        have hrole := hTask.spaceOk.table d hd hpd
        exact congrFun (hfork.rest _ (h.holds.reaches_window ht (by omega) hpd) (by rw [hrole]; simp)
          (ne_of_role hrole h.holds.current_role (by simp))) i

/-- **The counters stay covered by a fork** that makes none of them overflow. -/
theorem ForkPages.counted (h : Sound m L ∅) (h0 : emptySlot m ≠ 0) (hc : Counted m2) (hzero : held m.ram m.cr3 0 = 0)
    (hroom : ∀ g, g ≠ 0 → (m2.bitmap g).toNat + held m.ram m.cr3 g + stale m.ram m.cr3 g < 256) :
    Counted (m2.forked D (emptySlot m) (m.cur.child a b (emptySlot m))) := by
  obtain ⟨hslot, hlt⟩ := emptySlot_ok h0
  set s := m2.forked D (emptySlot m) (m.cur.child a b (emptySlot m)) with hs
  have htotal2 : ∀ g, total (Finset.range MAX_TASKS) (Mm.heldBy m2) g = total (Finset.range MAX_TASKS) (Mm.heldBy m) g :=
    fun g => Finset.sum_congr rfl fun p _ => by
      rw [hF.dirPage.heldBy hF.taskSound.holds hF.dirSound.holds, hF.taskPage.heldBy h.holds hF.taskSound.holds]
  have htotal : ∀ g, total (Finset.range MAX_TASKS) (Mm.heldBy s) g =
      total (Finset.range MAX_TASKS) (Mm.heldBy m2) g + held m.ram m.cr3 g := by
    intro g
    have hchange : total (Finset.range MAX_TASKS) (Mm.heldBy s) g + Mm.heldBy m (emptySlot m) g =
        total (Finset.range MAX_TASKS) (Mm.heldBy m) g + Mm.heldBy s (emptySlot m) g :=
      total_change (Finset.mem_range.mpr hlt) fun q _ hq => by rw [hs, hF.heldBy h h0, if_neg hq]
    rw [heldBy_none hslot, Nat.add_zero] at hchange
    rw [hchange, htotal2, hs, hF.heldBy h h0, if_pos rfl]
  have hcount : ∀ g, (s.bitmap g).toNat =
      (m2.bitmap g).toNat + if g = 0 then 0 else held m.ram m.cr3 g + stale m.ram m.cr3 g := by
    intro g
    rw [hs, hF.bitmap h h0, UInt8.toNat_add, UInt8.toNat_ofNat']
    have hlt := (m2.bitmap g).toNat_lt
    by_cases hg : g = 0
    · rw [if_pos hg]
      omega
    · have := hroom g hg
      rw [if_neg hg]
      omega
  refine ⟨fun g => ?_, fun g hr => ?_⟩
  · have h1 := hc.le g
    rw [htotal, hcount]
    by_cases hg : g = 0
    · subst hg
      rw [if_pos rfl]
      omega
    · rw [if_neg hg]
      omega
  · have h1 := hc.lt g (hF.refers hr)
    rw [htotal, hcount]
    by_cases hg : g = 0
    · subst hg
      rw [if_pos rfl]
      omega
    · rw [if_neg hg]
      omega

end Fork

/-! ## A fork returns -/

/-- The allocator hands out the first free frame, at least where nothing reaches the free frames. -/
structure Serves (alloc : Kernel Nat) : Prop where
  takes : ∀ m f m', Returns allocUnreferenced m f m' → Returns alloc m f m'
  hands : ∀ m, (∀ g, m.bitmap g = 0 → ¬ Reaches m g) → Hands alloc m

theorem serves_allocPageFrame : Serves allocPageFrame :=
  ⟨fun _ _ _ h => (allocUnreferenced_ok.mp h).1, fun _ h => hands_of_counted fun g hr hz => h g hz hr⟩

theorem serves_allocUnreferenced : Serves allocUnreferenced := ⟨fun _ _ _ h => h, fun _ _ => hands_unreferenced _⟩

theorem Serves.returns {alloc : Kernel Nat} (hS : Serves alloc) (m : Machine) (hidle : ∀ g, m.bitmap g = 0 → ¬ Reaches m g)
    (hroom : ∃ g, g < frames ∧ m.bitmap g = 0) : ∃ f, Returns alloc m f (m.setCount f 1) := by
  obtain ⟨f, hf⟩ := allocUnreferenced_returns hidle hroom
  exact ⟨f, hS.takes _ _ _ hf⟩

section Returns

variable {alloc : Kernel Nat} {m : Machine} {L : Layout} {T : Finset Nat}

theorem Counted.idle (hc : Counted m) (h : Holds m L) (g : Nat) (hz : m.bitmap g = 0) : ¬ Reaches m g :=
  fun hr => hc.ne_zero h hr hz

theorem exists_free (h : 0 < (freeFrames m).card) : ∃ g, g < frames ∧ m.bitmap g = 0 := by
  obtain ⟨g, hg⟩ := Finset.card_pos.mp h
  obtain ⟨hlt, hz⟩ := Finset.mem_filter.mp hg
  exact ⟨g, Finset.mem_range.mp hlt, hz⟩

/-- The frames that a page of the kernel takes. -/
def newFrames (L : Layout) (K f : Nat) : Finset Nat := if L.ktab = none then {f, K} else {f}

theorem newFrames_card (L : Layout) (K f : Nat) : (newFrames L K f).card ≤ if L.ktab = none then 2 else 1 := by
  rw [newFrames]
  split
  · exact Finset.card_le_two
  · exact (Finset.card_singleton f).le

theorem NewPage.free {m' : Machine} {K k f : Nat} (hN : NewPage alloc m L m' K k f) (hA : Hands alloc m)
    (hA1 : Hands alloc (m.setCount f 1)) : freeFrames m \ newFrames L K f ⊆ freeFrames m' := by
  intro g hg
  obtain ⟨hg, hnew⟩ := Finset.mem_sdiff.mp hg
  obtain ⟨hlt, hz⟩ := Finset.mem_filter.mp hg
  refine Finset.mem_filter.mpr ⟨hlt, ?_⟩
  rw [(hN.bitmap hA hA1).2.2, if_neg, hz]
  rintro (rfl | ⟨hK, rfl⟩)
  · apply hnew
    rw [newFrames]
    split <;> simp
  · apply hnew
    rw [newFrames, if_pos hK]
    simp

/-- **A page of the kernel** can be had when enough frames are free. -/
theorem exists_newPage (hS : Serves alloc) (h : Sound m L T) (hT : T.card ≤ 8) (hc : Counted m)
    (hroom : (if L.ktab = none then 2 else 1) ≤ (freeFrames m).card) : ∃ m' K k f, NewPage alloc m L m' K k f := by
  have hidle := hc.idle h.holds
  have hpos : 0 < (freeFrames m).card := by
    split at hroom <;> omega
  obtain ⟨f, hf⟩ := hS.returns m hidle (exists_free hpos)
  cases hK : L.ktab with
  | some K =>
    obtain ⟨k, hk⟩ := h.tidy.room h.holds hK hT
    exact ⟨_, K, k, f, .slot K k f hK hk hf⟩
  | none =>
    rw [if_pos hK] at hroom
    obtain ⟨K, ht⟩ := hS.returns (m.setCount f 1) (@idle_setCount m f hidle) (room_setCount hroom)
    exact ⟨_, K, 0, f, .table K f hK hf ht⟩

/-- **`do_fork` returns** when three frames are free. -/
theorem doFork_returns (hS : Serves alloc) (h : Sound m L ∅) (hc : Counted m) (h0 : emptySlot m ≠ 0)
    (hroom : 3 ≤ (freeFrames m).card) : ∃ m1 L1 m2 L2 K a f b D, ForkPages alloc m L m1 L1 m2 L2 K a f b D ∧ Counted m2 ∧
      (∀ g, m2.bitmap g = 1 ∨ m2.bitmap g = m.bitmap g) ∧ (freeFrames m).card ≤ (freeFrames m2).card + 3 ∧
      Returns (doFork alloc) m () (m2.forked D (emptySlot m) (m.cur.child a b (emptySlot m))) := by
  have hands : ∀ {s Ls}, Counted s → Holds s Ls → Hands alloc s ∧ ∀ g, Hands alloc (s.setCount g 1) := fun hcs hs =>
    ⟨hS.hands _ (hcs.idle hs), fun g => hS.hands _ (@idle_setCount _ g (hcs.idle hs))⟩
  obtain ⟨hA, hA1⟩ := hands hc h.holds
  have hcounted : ∀ {m1 K k f}, NewPage alloc m L m1 K k f → Counted m1 := fun hN => hN.counted h hA (hA1 _) hc
  have hA2 : ∀ m1 K k f, NewPage alloc m L m1 K k f → Hands alloc m1 ∧ ∀ g, Hands alloc (m1.setCount g 1) := by
    intro m1 K k f hN
    obtain ⟨L1, _, hs1⟩ := hN.kernelPage h hA (hA1 f)
    exact hands (hcounted hN) hs1.holds
  obtain ⟨m1, K, a, f, hN1⟩ := exists_newPage hS h (by simp) hc (by split <;> omega)
  obtain ⟨L1, p1, hs1⟩ := hN1.kernelPage h hA (hA1 f)
  have hc1 := hcounted hN1
  obtain ⟨hA3, hA4⟩ := hA2 m1 K a f hN1
  have hroom1 : (freeFrames m).card ≤ (freeFrames m1).card + 2 := by
    have h1 := Finset.card_le_card (hN1.free hA (hA1 f))
    have h2 := Finset.le_card_sdiff (newFrames L K f) (freeFrames m)
    have h3 := newFrames_card L K f
    split at h3 <;> omega
  obtain ⟨m2, K', b, D, hN2⟩ := exists_newPage hS hs1 (by simp) hc1 (by rw [p1.ktab, if_neg (by simp)]; omega)
  obtain ⟨L2, p2, hs2⟩ := hN2.kernelPage hs1 hA3 (hA4 D)
  obtain rfl : K = K' := (p2.old K p1.ktab).1
  have hF : ForkPages alloc m L m1 L1 m2 L2 K a f b D := ⟨hN1, p1, hs1, hN2, p2, hs2⟩
  have hcounters : ∀ g, m2.bitmap g = 1 ∨ m2.bitmap g = m.bitmap g := by
    intro g
    rw [(hN2.bitmap hA3 (hA4 D)).2.2, (hN1.bitmap hA (hA1 f)).2.2]
    split
    · exact Or.inl rfl
    · split
      · exact Or.inl rfl
      · exact Or.inr rfl
  have hroom2 : (freeFrames m1).card ≤ (freeFrames m2).card + 1 := by
    have h1 := Finset.card_le_card (hN2.free hA3 (hA4 D))
    have h2 := Finset.le_card_sdiff (newFrames L1 K D) (freeFrames m1)
    have h3 := newFrames_card L1 K D
    rw [p1.ktab, if_neg (by simp)] at h3
    omega
  exact ⟨m1, L1, m2, L2, K, a, f, b, D, hF, hN2.counted hs1 hA3 (hA4 D) hc1, hcounters, by omega,
    (doFork_ok h hA hA1 hA2).mpr ⟨m1, L1, m2, L2, K, a, f, b, D, hF, h0, rfl⟩⟩

end Returns

end Raampjes.Mm
