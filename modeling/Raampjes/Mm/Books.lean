import Raampjes.Mm.Ledger
import Raampjes.Mm.WriteFault

/-!
# The frame table over whole runs

- `kernelHeld`: the references of the kernel half, apart from the first 4 MiB; `kernelHeld_some` and `kernelHeld_none`
  read them off the kernel's page table;
- `Tallied`: every counter is the number of references; `Tallied.pays`, `NewPage.tallied`, `Tallied.forked`,
  `Tallied.slotCleared`: how the changes keep it;
- `Books`: the invariant; `step_books`: one step keeps it, when a fork starts from an address space without stale entries;
- `frames_exact`: so the counters are exact after every run.
-/

namespace Raampjes.Mm

open Progs Refs Runs Sched

/-- The numbers of the kernel's pages with the frame `f`, apart from the first 4 MiB and the window. -/
def kernelPages (m : Machine) (f : Nat) : Finset Nat :=
  (Finset.Ico (769 * 1024) (1023 * 1024)).filter fun n => walk m.ram m.cr3 (n * PAGE_SIZE) = some f

/-- The directory entries with the kernel's page table `f`, apart from the first one and the window. -/
def kernelTables (m : Machine) (f : Nat) : Finset Nat :=
  (Finset.Ico 769 1023).filter fun d => present (m.ram m.cr3 d) = true ∧ frameOf (m.ram m.cr3 d) = f

/-- How often the kernel half refers to the frame `f`, apart from the first 4 MiB. -/
def kernelHeld (m : Machine) (f : Nat) : Nat := (kernelPages m f).card + (kernelTables m f).card

/-- The slots of the page table `K` with the frame `f`. -/
def slotsOf (ram : Nat → Nat → Word) (K f : Nat) : Finset Nat :=
  (Finset.range 1024).filter fun j => present (ram K j) = true ∧ frameOf (ram K j) = f

section Kernel

variable {m m' : Machine} {L L' : Layout} {T : Finset Nat} {K k f g : Nat}

theorem kernelTables_some (h : Holds m L) (hK : L.ktab = some K) :
    (kernelTables m f).card = if K = f then 1 else 0 := by
  have hD := h.curDir
  obtain ⟨hp, hframe, _⟩ := hD.ktab K hK
  refine card_filter_single (a := 769) (Finset.mem_Ico.mpr ⟨le_refl _, by decide⟩) fun d hd => ?_
  obtain ⟨hge, hlt⟩ := Finset.mem_Ico.mp hd
  by_cases hd9 : d = 769
  · subst hd9
    rw [hframe]
    simp [hp]
  · rw [hD.rest d (by omega) hlt]
    simp [hd9, present]

theorem kernelTables_none (h : Holds m L) (hK : L.ktab = none) : (kernelTables m f).card = 0 := by
  have hD := h.curDir
  rw [Finset.card_eq_zero, kernelTables, Finset.filter_eq_empty_iff]
  rintro d hd ⟨hp, _⟩
  obtain ⟨hge, hlt⟩ := Finset.mem_Ico.mp hd
  by_cases hd9 : d = 769
  · rw [hd9, hD.no_ktab hK] at hp
    cases hp
  · rw [hD.rest d (by omega) hlt] at hp
    cases hp

/-- The page number of a kernel page: the entry, and the slot. -/
theorem kernel_index (n : Nat) :
    dirIndex (n * PAGE_SIZE) = n / 1024 ∧ pageTableIndex (n * PAGE_SIZE) = n % 1024 := by
  rw [dirIndex, pageTableIndex, PAGE_SIZE]
  omega

theorem kernelPages_none (h : Holds m L) (hK : L.ktab = none) : (kernelPages m f).card = 0 := by
  have hD := h.curDir
  rw [Finset.card_eq_zero, kernelPages, Finset.filter_eq_empty_iff]
  intro n hn hw
  obtain ⟨hge, hlt⟩ := Finset.mem_Ico.mp hn
  obtain ⟨hp, _⟩ := walk_eq_some.mp hw
  rw [(kernel_index n).1] at hp
  by_cases hd9 : n / 1024 = 769
  · rw [hd9, hD.no_ktab hK] at hp
    cases hp
  · rw [hD.rest _ (by omega) (by omega)] at hp
    cases hp

theorem kernelPages_some (h : Holds m L) (hK : L.ktab = some K) : (kernelPages m f).card = (slotsOf m.ram K f).card := by
  have hD := h.curDir
  obtain ⟨hp, hframe, _⟩ := hD.ktab K hK
  have hentry : ∀ j, j < 1024 → (walk m.ram m.cr3 ((769 * 1024 + j) * PAGE_SIZE) = some f ↔
      present (m.ram K j) = true ∧ frameOf (m.ram K j) = f) := by
    intro j hj
    obtain ⟨hd, hi⟩ := kernel_index (769 * 1024 + j)
    rw [walk_eq_some, hd, hi, show (769 * 1024 + j) / 1024 = 769 by omega, show (769 * 1024 + j) % 1024 = j by omega, hframe]
    exact and_iff_right hp
  refine (Finset.card_bij (fun j _ => 769 * 1024 + j) ?_ ?_ ?_).symm
  · intro j hj
    obtain ⟨hlt, hword⟩ := Finset.mem_filter.mp hj
    have hj' := Finset.mem_range.mp hlt
    exact Finset.mem_filter.mpr ⟨Finset.mem_Ico.mpr ⟨by omega, by omega⟩, (hentry j hj').mpr hword⟩
  · intro i _ j _ he
    omega
  · intro n hn
    obtain ⟨hIco, hw⟩ := Finset.mem_filter.mp hn
    obtain ⟨hge, hlt⟩ := Finset.mem_Ico.mp hIco
    have hd9 : n / 1024 = 769 := by
      by_contra hne
      have hpd := (walk_eq_some.mp hw).1
      rw [(kernel_index n).1, hD.rest _ (by omega) (by omega)] at hpd
      cases hpd
    refine ⟨n - 769 * 1024, Finset.mem_filter.mpr ⟨Finset.mem_range.mpr (by omega), ?_⟩, by omega⟩
    rw [← show 769 * 1024 + (n - 769 * 1024) = n by omega] at hw
    exact (hentry _ (by omega)).mp hw

theorem kernelHeld_none (h : Holds m L) (hK : L.ktab = none) : kernelHeld m f = 0 := by
  rw [kernelHeld, kernelPages_none h hK, kernelTables_none h hK]

/-- **The kernel's references** are the slots of its page table, and that table. -/
theorem kernelHeld_some (h : Holds m L) (hK : L.ktab = some K) :
    kernelHeld m f = (slotsOf m.ram K f).card + if K = f then 1 else 0 := by
  rw [kernelHeld, kernelPages_some h hK, kernelTables_some h hK]

/-- The same slots, the same references. -/
theorem kernelHeld_congr (h : Holds m L) (h' : Holds m' L') (hktab : L'.ktab = L.ktab)
    (hword : ∀ K j, L.ktab = some K → j < 1024 → m'.ram K j = m.ram K j) : kernelHeld m' f = kernelHeld m f := by
  cases hK : L.ktab with
  | none => rw [kernelHeld_none h hK, kernelHeld_none h' (hktab.trans hK)]
  | some K =>
    have hslots : slotsOf m'.ram K f = slotsOf m.ram K f := by
      apply Finset.filter_congr
      intro j hj
      rw [hword K j hK (Finset.mem_range.mp hj)]
    rw [kernelHeld_some h hK, kernelHeld_some h' (hktab.trans hK), hslots]

/-- A slot of a task has the frame of its structure or of its directory. -/
theorem slot_frame {p : Nat} {t : TaskStruct} (h : Holds m L) (ht : m.tasks p = some t)
    (hslot : t.addr = slotAddr k ∨ t.pageDirectory = slotAddr k) : ∃ K, L.ktab = some K ∧ present (m.ram K k) = true ∧
      (L.role (frameOf (m.ram K k)) = .task p ∨ L.role (frameOf (m.ram K k)) = .dir p) := by
  have hT := h.task p t ht
  have hp0 : p ≠ 0 := by
    intro hp
    obtain ⟨hd0, hlt0, _, ha0, _⟩ := hT.boot hp
    rw [KERNEL_MEMORY, PAGE_SIZE] at hd0 ha0
    rw [slotAddr, PAGE_SIZE] at hslot
    rcases hslot with he | he
    · omega
    · omega
  obtain ⟨K, a, b, hK, _, _, _, haddr, hpa, hfa, hdir, hpb, hfb⟩ := hT.slots hp0
  refine ⟨K, hK, ?_⟩
  rcases hslot with he | he
  · rw [← slotAddr_inj (haddr.symm.trans he), hfa]
    exact ⟨hpa, Or.inl (hT.own hp0)⟩
  · rw [← slotAddr_inj (hdir.symm.trans he), hfb]
    exact ⟨hpb, Or.inr hT.role⟩

/-- What pays for the running task's pages leaves the kernel's alone: no slot is new, and those of the tasks are kept. -/
theorem Pays.kernelHeld (hp : Pays (m, L) (m', L')) (h : Sound m L ∅) (h' : Sound m' L' ∅) :
    kernelHeld m' f = kernelHeld m f := by
  cases hK : L.ktab with
  | none => rw [kernelHeld_none h.holds hK, kernelHeld_none h'.holds (hp.kept.ktab.trans hK)]
  | some K =>
    have hK' : L'.ktab = some K := hp.kept.ktab.trans hK
    have hslots : slotsOf m'.ram K f = slotsOf m.ram K f := by
      apply Finset.filter_congr
      intro j hj
      have hj' := Finset.mem_range.mp hj
      have hnew : present (m'.ram K j) = true → m'.ram K j = m.ram K j := hp.kernel.slot K j hK hj'
      refine ⟨fun hw => hnew hw.1 ▸ hw, fun hw => ?_⟩
      have hpj : present (m'.ram K j) = true := by
        obtain ⟨_, hT⟩ := h.tidy.slot K j hK hj' hw.1
        obtain ⟨p, t, ht, hslot⟩ := hT.resolve_left (Finset.notMem_empty j)
        obtain ⟨t', ht', hkey⟩ := hp.kept.same.get ht
        simp only [TaskStruct.key, Prod.mk.injEq] at hkey
        rw [← hkey.2.1, ← hkey.2.2.1] at hslot
        obtain ⟨K', hKK, hpj, _⟩ := slot_frame h'.holds ht' hslot
        rwa [← Option.some.inj (hKK.symm.trans hK')]
      exact (hnew hpj).symm ▸ hw
    rw [kernelHeld_some h.holds hK, kernelHeld_some h'.holds hK', hslots]

end Kernel

/-! ## The tally -/

/-- Every counter is the number of references: those of the tasks, those of the kernel half, and `fixed` ones of frames
that no task maps; and `leak` ones are counted that nobody has. -/
structure Tallied (fixed leak : Nat → Nat) (m : Machine) : Prop where
  exact : Tally (Finset.range MAX_TASKS) (heldBy m) (fun f => fixed f + leak f + kernelHeld m f) fun f => (m.bitmap f).toNat
  apart : ∀ f, fixed f ≠ 0 → ∀ p, heldBy m p f = 0

section Tallied

variable {fixed leak : Nat → Nat} {m m' m1 m2 : Machine} {L L' L1 L2 : Layout} {T T' : Finset Nat} {K k a b p f g D : Nat}
  {t : TaskStruct}

/-- A frame with a free counter has no references. -/
theorem Tallied.idle (hX : Tallied fixed leak m) (hz : m.bitmap f = 0) : fixed f = 0 := by
  have he : (m.bitmap f).toNat = fixed f + leak f + Mm.kernelHeld m f + total (Finset.range MAX_TASKS) (heldBy m) f := hX.exact f
  rw [hz, show (0 : UInt8).toNat = 0 from rfl] at he
  omega

theorem Tallied.counted (hX : Tallied fixed leak m) (h : Holds m L) (hfirst : ∀ f, f < 1024 → fixed f ≠ 0)
    (hpt : L.pt1 < 1024) : Counted m := by
  refine hX.exact.covered fun f hf => ?_
  have hD := h.curDir
  suffices hpos : fixed f ≠ 0 ∨ 0 < kernelHeld m f by omega
  rcases hf with ⟨a, hge, hlt, hw⟩ | ⟨d, hge, hlt, hp, hframe⟩
  · rw [KERNEL_MEMORY] at hge
    by_cases hlow : dirIndex a = 768
    · refine Or.inl (hfirst f ?_)
      obtain ⟨_, _, hframe⟩ := walk_eq_some.mp hw
      rw [hlow, hD.low_frame, (h.low _ (pageTableIndex_lt a)).2] at hframe
      exact hframe ▸ pageTableIndex_lt a
    · refine Or.inr (Nat.add_pos_left (Finset.card_pos.mpr ⟨a / PAGE_SIZE, Finset.mem_filter.mpr ⟨?_, ?_⟩⟩) _)
      · rw [dirIndex] at hlow
        rw [Finset.mem_Ico, PAGE_SIZE]
        omega
      · rwa [walk_base]
  · by_cases hlow : d = 768
    · refine Or.inl (hfirst f ?_)
      rw [← hframe, hlow, hD.low_frame]
      exact hpt
    · refine Or.inr (Nat.add_pos_right _ (Finset.card_pos.mpr ⟨d, Finset.mem_filter.mpr ⟨?_, hp, hframe⟩⟩))
      exact Finset.mem_Ico.mpr ⟨by omega, hlt⟩

/-- The running task changes its references, and its counters with them. -/
theorem Tallied.pays (hX : Tallied fixed leak m) (hp : Pays (m, L) (m', L')) (h : Sound m L ∅) (h' : Sound m' L' ∅) : Tallied fixed leak m' := by
  have hcur : m'.current = m.current := hp.kept.same.current
  have hcr3 : m'.cr3 = m.cr3 := hp.kept.same.cr3
  have hown := heldBy_current h.holds
  have hown' := heldBy_current h'.holds
  rw [hcur, hcr3] at hown'
  constructor
  · have hkernel : (fun f => fixed f + leak f + kernelHeld m' f) = fun f => fixed f + leak f + kernelHeld m f :=
      funext fun f => by rw [hp.kernelHeld h h']
    rw [hkernel]
    refine hX.exact.balanced (task_mem h.holds h.holds.curTask) (fun q _ hq f => congrFun (hp.others q hq) f) ?_
    rw [hown, hown']
    exact hp.balanced
  · intro f hf q
    by_cases hq : q = m.current
    · subst hq
      rw [hown']
      have h0 := hX.apart f hf m.current
      rw [hown] at h0
      refine hp.fresh f (fun hz => hf ?_) h0
      exact hX.idle hz
    · rw [hp.others q hq]
      exact hX.apart f hf q

/-- The slots of a page table, when one of them changes. -/
theorem slotsOf_change {ram ram' : Nat → Nat → Word} (hk : k < 1024) (hrest : ∀ j, j ≠ k → ram' K j = ram K j) :
    (slotsOf ram' K g).card + (if present (ram K k) = true ∧ frameOf (ram K k) = g then 1 else 0) =
      (slotsOf ram K g).card + if present (ram' K k) = true ∧ frameOf (ram' K k) = g then 1 else 0 := by
  refine card_filter_change (P := fun j => present (ram K j) = true ∧ frameOf (ram K j) = g)
    (Q := fun j => present (ram' K j) = true ∧ frameOf (ram' K j) = g) (Finset.mem_range.mpr hk) fun j _ hj => ?_
  rw [hrest j hj]

/-- When one of them gets a new page. -/
theorem slotsOf_fill {ram ram' : Nat → Nat → Word} (hk : k < 1024) (hold : present (ram K k) = false)
    (hword : ram' K k = mkEntry f 3#32) (hf : f < 2 ^ 20) (hrest : ∀ j, j ≠ k → ram' K j = ram K j) :
    (slotsOf ram' K g).card = (slotsOf ram K g).card + if f = g then 1 else 0 := by
  have hc := slotsOf_change (g := g) hk hrest
  rw [hold, hword, present_mkEntry, frameOf_mkEntry hf (by decide)] at hc
  simpa [present] using hc

/-- **The kernel takes a page**, and perhaps a page table. -/
theorem NewPage.kernelHeld (hN : NewPage allocPageFrame m L m' K k f) (hp : KernelPage m L m' L' K k f) (h : Sound m L T)
    (h' : Sound m' L' T') (hA : Hands allocPageFrame m) (hA1 : Hands allocPageFrame (m.setCount f 1)) :
    kernelHeld m' g = kernelHeld m g + if g = f ∨ (L.ktab = none ∧ g = K) then 1 else 0 := by
  obtain ⟨hzero, hnew, _⟩ := hN.bitmap hA hA1
  rw [kernelHeld_some h'.holds hp.ktab]
  cases hK : L.ktab with
  | none =>
    have hslots : (slotsOf m'.ram K g).card = if f = g then 1 else 0 := by
      refine card_filter_single (Finset.mem_range.mpr hp.lt) fun j hj => ?_
      by_cases hjk : j = k
      · subst hjk
        rw [hp.word, present_mkEntry, frameOf_mkEntry hp.frame_lt (by decide)]
        simp [present]
      · refine ⟨fun hw => ?_, fun hw => absurd hw.1 hjk⟩
        have hKs := (hN.slots h.holds hA1 (Finset.mem_range.mp hj) hjk hw.1).1
        rw [hK] at hKs
        cases hKs
    obtain ⟨_, hne⟩ := hnew hK
    rw [kernelHeld_none h.holds hK, hslots]
    by_cases hgf : g = f
    · simp [hgf, hne]
    · simp [hgf, Ne.symm hgf, eq_comm]
  | some K' =>
    obtain ⟨rfl, hold, hrest⟩ := hp.old K' hK
    rw [kernelHeld_some h.holds hK, slotsOf_fill hp.lt hold hp.word hp.frame_lt hrest]
    simp only [reduceCtorEq, false_and, or_false, eq_comm (a := g)]
    omega

theorem NewPage.tallied (hN : NewPage allocPageFrame m L m' K k f) (hp : KernelPage m L m' L' K k f) (h : Sound m L T)
    (h' : Sound m' L' T') (hA : Hands allocPageFrame m) (hA1 : Hands allocPageFrame (m.setCount f 1))
    (hX : Tallied fixed leak m) : Tallied fixed leak m' := by
  obtain ⟨hzero, hnew, hbitmap⟩ := hN.bitmap hA hA1
  have hheld : heldBy m' = heldBy m := funext fun q => hp.heldBy h.holds h'.holds q
  refine ⟨fun g => ?_, fun g hg q => ?_⟩
  · have he : (m.bitmap g).toNat = fixed g + leak g + Mm.kernelHeld m g + total (Finset.range MAX_TASKS) (heldBy m) g := hX.exact g
    simp only [hheld, hN.kernelHeld hp h h' hA hA1, hbitmap]
    by_cases hg : g = f ∨ (L.ktab = none ∧ g = K)
    · have hz : m.bitmap g = 0 := by
        rcases hg with rfl | ⟨hK, rfl⟩
        · exact hzero
        · exact (hnew hK).1
      rw [hz] at he
      rw [if_pos hg, if_pos hg]
      show 1 = _
      rw [show (0 : UInt8).toNat = 0 from rfl] at he
      omega
    · rw [if_neg hg, if_neg hg]
      exact he
  · rw [hheld]
    exact hX.apart g hg q

/-- The references of a task, when memory changes in the kernel's page table only. -/
theorem heldBy_same {q : Nat} (h : Holds m L) (h' : Holds m' L') (hdir : L'.dir = L.dir) (htasks : m'.tasks q = m.tasks q)
    (hram : ∀ g, L.role g ≠ .kernelTable → m'.ram g = m.ram g) : heldBy m' q = heldBy m q := by
  cases ht : m.tasks q with
  | none => rw [heldBy_none ht, heldBy_none (htasks.trans ht)]
  | some t =>
    have hT := h.task q t ht
    rw [heldBy_of h ht, heldBy_of h' (htasks.trans ht), hdir]
    funext g
    apply held_congr
    intro d hd
    refine ⟨congrFun (hram _ (by rw [hT.role]; simp)) d, fun hpd i _ => congrFun (hram _ ?_) i⟩
    rw [hT.spaceOk.table d hd hpd]
    simp

/-- **A page of the kernel is freed.** -/
theorem Tallied.slotCleared (hX : Tallied fixed leak m) (h : Holds m L) (h' : Holds (m.slotCleared K k) L)
    (hK : L.ktab = some K) (hk : k < 1024) (hp : present (m.ram K k) = true) : Tallied fixed leak (m.slotCleared K k) := by
  have hram : ∀ g j, (g ≠ K ∨ j ≠ k) → (m.slotCleared K k).ram g j = m.ram g j := fun g j hg => by
    rw [Machine.slotCleared, setWord_of_ne _ _ _ _ hg, drop_ram]
  have hword : (m.slotCleared K k).ram K k = absent (m.ram K k) := by
    rw [Machine.slotCleared, setWord_self]
  have hheld : heldBy (m.slotCleared K k) = heldBy m := by
    funext q
    refine heldBy_same h h' rfl ?_ fun g hg => funext fun j => hram g j (Or.inl fun he => hg (he ▸ h.ktab_role K hK))
    rw [Machine.slotCleared, setWord_tasks, drop_tasks]
  have hkernel : ∀ g, Mm.kernelHeld (m.slotCleared K k) g + (if frameOf (m.ram K k) = g then 1 else 0) = Mm.kernelHeld m g := by
    intro g
    have hc := @slotsOf_change K k g m.ram (m.slotCleared K k).ram hk fun j hj => hram K j (Or.inr hj)
    rw [hword, hp, present_absent] at hc
    simp only [true_and, Bool.false_eq_true, false_and, if_false, Nat.add_zero] at hc
    rw [kernelHeld_some h hK, kernelHeld_some h' hK]
    omega
  refine ⟨fun g => ?_, fun g hg q => ?_⟩
  · have he : (m.bitmap g).toNat = fixed g + leak g + Mm.kernelHeld m g + total (Finset.range MAX_TASKS) (heldBy m) g := hX.exact g
    have hg := hkernel g
    show ((m.drop (frameOf (m.ram K k))).bitmap g).toNat =
      fixed g + leak g + Mm.kernelHeld (m.slotCleared K k) g + total (Finset.range MAX_TASKS) (heldBy (m.slotCleared K k)) g
    rw [hheld]
    by_cases hgf : g = frameOf (m.ram K k)
    · subst hgf
      rw [if_pos rfl] at hg
      have hne : m.bitmap (frameOf (m.ram K k)) ≠ 0 := toNat_ne_zero.mp (by omega)
      rw [drop_self hne]
      omega
    · rw [if_neg fun hf => hgf hf.symm] at hg
      rw [drop_other hgf]
      omega
  · rw [hheld]
    exact hX.apart g hg q

/-- **A task is freed** that has no references left. -/
theorem TaskFreed.tallied (hF : TaskFreed m L p K a b m') (h : Sound m L ∅) (hX : Tallied fixed leak m)
    (hempty : heldBy m p = fun _ => 0) : Tallied fixed leak m' := by
  have hheld : heldBy { m with tasks := Function.update m.tasks p none } = heldBy m := by
    funext q
    by_cases hq : q = p
    · subst hq
      rw [hempty]
      exact heldBy_none (Function.update_self ..)
    · exact heldBy_same h.holds hF.gone.holds rfl (Function.update_of_ne hq ..) fun _ _ => rfl
  have hX1 : Tallied fixed leak { m with tasks := Function.update m.tasks p none } :=
    ⟨fun g => by rw [hheld]; exact hX.exact g, fun g hg q => by rw [hheld]; exact hX.apart g hg q⟩
  have hX2 := hX1.slotCleared hF.gone.holds hF.dir.holds hF.ktab hF.b_lt hF.b_present
  have hKa : (Machine.slotCleared { m with tasks := Function.update m.tasks p none } K b).ram K a = m.ram K a := by
    rw [Machine.slotCleared, setWord_of_ne _ _ _ _ (Or.inr hF.ne), drop_ram]
  have hs := hF.sound.holds
  rw [hF.eq] at hs ⊢
  exact hX2.slotCleared hF.dir.holds hs hF.ktab hF.a_lt (hKa ▸ hF.a_present)

/-- What an address space refers to is a page or a page table, once. -/
theorem held_le_one {ram : Nat → Nat → Word} (h : SpaceOk ram L D) : held ram D f ≤ 1 ∧
    (held ram D f ≠ 0 → L.role f = .data ∨ ∃ d, L.role f = .table d) := by
  have hpage : ∀ n ∈ pagesOf ram D f, HasPage ram D (dirIndex (n * PAGE_SIZE)) (pageTableIndex (n * PAGE_SIZE)) ∧
      pageOf ram D (dirIndex (n * PAGE_SIZE)) (pageTableIndex (n * PAGE_SIZE)) = f := by
    intro n hn
    obtain ⟨hlt, hw⟩ := Finset.mem_filter.mp hn
    obtain ⟨hp, hq, hf⟩ := walk_eq_some.mp hw
    exact ⟨⟨pageNumber_dir hlt, pageTableIndex_lt _, hp, hq⟩, hf⟩
  have htable : ∀ d ∈ tablesOf ram D f, d < 768 ∧ present (ram D d) = true ∧ frameOf (ram D d) = f := fun d hd =>
    ⟨Finset.mem_range.mp (Finset.mem_filter.mp hd).1, (Finset.mem_filter.mp hd).2⟩
  have hone : (pagesOf ram D f).card ≤ 1 := by
    refine Finset.card_le_one.mpr fun n hn n' hn' => ?_
    obtain ⟨h1, hf⟩ := hpage n hn
    obtain ⟨h1', hf'⟩ := hpage n' hn'
    have hsame := same_page_iff.mpr (h.inj rfl _ _ _ _ h1 h1' (hf.trans hf'.symm))
    rwa [Nat.mul_div_cancel _ (by decide), Nat.mul_div_cancel _ (by decide)] at hsame
  have hone' : (tablesOf ram D f).card ≤ 1 := by
    refine Finset.card_le_one.mpr fun d hd d' hd' => ?_
    obtain ⟨hlt, hp, hf⟩ := htable d hd
    obtain ⟨hlt', hp', hf'⟩ := htable d' hd'
    exact h.table_inj hlt hlt' hp hp' (hf.trans hf'.symm)
  rcases (pagesOf ram D f).eq_empty_or_nonempty with hp | ⟨n, hn⟩
  · rcases (tablesOf ram D f).eq_empty_or_nonempty with ht | ⟨d, hd⟩
    · simp [held, hp, ht]
    · obtain ⟨hlt, hpd, rfl⟩ := htable d hd
      refine ⟨?_, fun _ => Or.inr ⟨d, h.table d hlt hpd⟩⟩
      rw [held, hp, Finset.card_empty, Nat.zero_add]
      exact hone'
  · obtain ⟨hpg, rfl⟩ := hpage n hn
    have hrole := h.page _ _ hpg
    have hnone : tablesOf ram D (pageOf ram D (dirIndex (n * PAGE_SIZE)) (pageTableIndex (n * PAGE_SIZE))) = ∅ := by
      refine Finset.eq_empty_of_forall_notMem fun d hd => ?_
      obtain ⟨hlt, hpd, hf⟩ := htable d hd
      have ht := h.table d hlt hpd
      rw [hf, hrole] at ht
      cases ht
    refine ⟨?_, fun _ => Or.inl hrole⟩
    rw [held, hnone, Finset.card_empty, Nat.add_zero]
    exact hone

/-- The kernel does not use the frames of user pages and page tables. -/
theorem kernelHeld_user (h : Sound m L ∅) (hr : L.role f = .data ∨ ∃ d, L.role f = .table d) : Mm.kernelHeld m f = 0 := by
  cases hK : L.ktab with
  | none => exact kernelHeld_none h.holds hK
  | some K =>
    have hne : K ≠ f := by
      rintro rfl
      rw [h.holds.ktab_role K hK] at hr
      rcases hr with hr | ⟨d, hr⟩ <;> cases hr
    have hslots : slotsOf m.ram K f = ∅ := by
      refine Finset.eq_empty_of_forall_notMem fun j hj => ?_
      obtain ⟨hlt, hp, rfl⟩ := Finset.mem_filter.mp hj
      obtain ⟨_, hT⟩ := h.tidy.slot K j hK (Finset.mem_range.mp hlt) hp
      obtain ⟨p, t, ht, hslot⟩ := hT.resolve_left (Finset.notMem_empty j)
      obtain ⟨K', hKK, _, hframe⟩ := slot_frame h.holds ht hslot
      obtain rfl : K' = K := Option.some.inj (hKK.symm.trans hK)
      rcases hframe with hframe | hframe
      · rw [hframe] at hr
        rcases hr with hr | ⟨d, hr⟩ <;> cases hr
      · rw [hframe] at hr
        rcases hr with hr | ⟨d, hr⟩ <;> cases hr
    rw [kernelHeld_some h.holds hK, hslots, if_neg hne, Finset.card_empty]

/-- A frame that a task holds is held by every task at most once, and by nobody else. -/
theorem Tallied.room (hX : Tallied fixed leak m) (h : Sound m L ∅) (hf : heldBy m p f ≠ 0) :
    (m.bitmap f).toNat ≤ MAX_TASKS + leak f := by
  have hfixed : fixed f = 0 := by
    by_contra hne
    exact hf (hX.apart f hne p)
  have hspace : ∀ q t, m.tasks q = some t → heldBy m q f ≤ 1 ∧
      (heldBy m q f ≠ 0 → L.role f = .data ∨ ∃ d, L.role f = .table d) := fun q t ht => by
    rw [heldBy_of h.holds ht]
    exact held_le_one (h.holds.task q t ht).spaceOk
  have hle : total (Finset.range MAX_TASKS) (heldBy m) f ≤ (Finset.range MAX_TASKS).card • 1 := by
    refine Finset.sum_le_card_nsmul _ _ 1 fun q _ => ?_
    cases ht : m.tasks q with
    | none =>
      rw [heldBy_none ht]
      exact Nat.zero_le _
    | some t => exact (hspace q t ht).1
  have hkernel : Mm.kernelHeld m f = 0 := by
    cases ht : m.tasks p with
    | none => exact absurd (congrFun (heldBy_none ht) f) hf
    | some t => exact kernelHeld_user h ((hspace p t ht).2 hf)
  have he : (m.bitmap f).toNat = fixed f + leak f + Mm.kernelHeld m f + total (Finset.range MAX_TASKS) (heldBy m) f := hX.exact f
  rw [Finset.card_range, smul_eq_mul, Nat.mul_one] at hle
  omega

/-- A fork raises the counter of the frame `f` by so little that it does not wrap. -/
def Room (m : Machine) (f : Nat) : Prop :=
  0 < held m.ram m.cr3 f + stale m.ram m.cr3 f → (m.bitmap f).toNat + held m.ram m.cr3 f + stale m.ram m.cr3 f < 255

/-- **After a fork** the counters also count what the entries name that are not present. -/
theorem Tallied.forked (hX : Tallied fixed leak m) (hF : ForkPages allocPageFrame m L m1 L1 m2 L2 K a f b D)
    (h : Sound m L ∅) (h0 : emptySlot m ≠ 0) (hX2 : Tallied fixed leak m2)
    (hnew : ∀ g, m2.bitmap g = 1 ∨ m2.bitmap g = m.bitmap g)
    (hroom : ∀ g, g ≠ 0 → Room m g) (hzero : fixed 0 ≠ 0) :
    Tallied fixed (fun g => leak g + if g = 0 then 0 else stale m.ram m.cr3 g)
      (m2.forked D (emptySlot m) (m.cur.child a b (emptySlot m))) := by
  obtain ⟨hslot, hlt⟩ := emptySlot_ok h0
  have hsound := hF.sound h0
  set p := emptySlot m with hp
  have hheld : ∀ q, heldBy (m2.forked D p (m.cur.child a b p)) q = if q = p then held m.ram m.cr3 else heldBy m q :=
    fun q => hF.heldBy h h0 q
  have hold : heldBy m2 = heldBy m := funext fun q => (hF.dirPage.heldBy hF.taskSound.holds hF.dirSound.holds q).trans
    (hF.taskPage.heldBy h.holds hF.taskSound.holds q)
  have hcur := heldBy_current h.holds
  have hkernel : ∀ g, Mm.kernelHeld (m2.forked D p (m.cur.child a b p)) g = Mm.kernelHeld m2 g := fun g => by
    refine kernelHeld_congr hF.dirSound.holds hsound.holds rfl fun K' j hK' _ => ?_
    obtain rfl : K' = K := Option.some.inj (hK'.symm.trans hF.dirPage.ktab)
    have hKD : K' ≠ D := (hF.spare.noTable.ktab K' hK').symm
    have hKc : K' ≠ m2.cr3 := ne_of_role (hF.dirSound.holds.ktab_role K' hK') hF.dirSound.holds.current_role (by simp)
    exact congrFun (hF.words.2.2 K' hKD hKc) j
  have hfree : held m.ram m.cr3 0 = 0 := by
    have := hX.apart 0 hzero m.current
    rwa [hcur] at this
  -- no counter wraps
  have hcount : ∀ g, ((m2.forked D p (m.cur.child a b p)).bitmap g).toNat =
      (m2.bitmap g).toNat + held m.ram m.cr3 g + if g = 0 then 0 else stale m.ram m.cr3 g := by
    intro g
    rw [hF.bitmap h h0]
    by_cases hg : g = 0
    · subst hg
      rw [if_pos rfl, if_pos rfl, hfree]
      simp
    · have hr := hroom g hg
      rw [Room] at hr
      have hle : (m2.bitmap g).toNat ≤ (m.bitmap g).toNat + 1 := by
        rcases hnew g with he | he
        · rw [he]
          exact Nat.le_add_left 1 _
        · rw [he]
          exact Nat.le_succ _
      have hlt2 := (m2.bitmap g).toNat_lt
      rw [if_neg hg, if_neg hg, UInt8.toNat_add, UInt8.toNat_ofNat', Nat.mod_eq_of_lt (by omega),
        Nat.mod_eq_of_lt (by omega)]
      omega
  constructor
  · refine hX2.exact.change (Finset.mem_range.mpr hlt) (fun q _ hq g => ?_) fun g => ?_
    · rw [hheld, if_neg hq, hold]
    · simp only [hheld, if_pos, hold, hkernel, hcount, heldBy_none hslot]
      omega
  · intro g hg q
    rw [hheld]
    by_cases hq : q = p
    · rw [if_pos hq, ← hcur]
      exact hX.apart g hg m.current
    · rw [if_neg hq]
      exact hX.apart g hg q

end Tallied

/-! ## The invariant -/

theorem wakeParent_bitmap (m : Machine) : (wakeParent m).bitmap = m.bitmap := by
  rw [wakeParent]
  split
  · split <;> rfl
  · rfl

theorem wakeParent_stopped {m : Machine} {q : Nat} {t' : TaskStruct} (ht : (wakeParent m).tasks q = some t')
    (hs : t'.state = .stopped) : ∃ t, m.tasks q = some t ∧ t.state = .stopped := by
  rw [wakeParent] at ht
  split at ht
  · rename_i p hp
    split at ht
    · by_cases hq : q = m.cur.ppid
      · subst hq
        obtain rfl : { p with state := .running } = t' := by simpa using ht
        cases hs
      · exact ⟨t', (Function.update_of_ne hq ..).symm.trans ht, hs⟩
    · exact ⟨t', ht, hs⟩
  · exact ⟨t', ht, hs⟩

/-- **The books**: the layout holds, the counters are exact, and a stopped task has no references. -/
structure Books (fixed leak : Nat → Nat) (m : Machine) (L : Layout) : Prop where
  sound : Sound m L ∅
  bounded : Bounded m
  pt1 : L.pt1 < 1024
  tallied : Tallied fixed leak m
  stopped : ∀ p t, m.tasks p = some t → t.state = .stopped → heldBy m p = fun _ => 0

/-- The program of an action loads below the kernel and keeps off page tables, and a fork leaves room in the counters. -/
def Act.Roomy (m : Machine) (a : Act) : Prop :=
  a.Proper m ∧ (a = .fork → ∀ f, f ≠ 0 → Room m f)

/-- How often a fork counts the frame `f` for entries that are not present. -/
def Act.leaks (m : Machine) : Act → Nat → Nat
  | .fork, f => if f = 0 then 0 else stale m.ram m.cr3 f
  | _, _ => 0

section Books

variable {fixed leak : Nat → Nat} {m m' m1 : Machine} {L L' L1 : Layout} {T : Finset Nat} {K k a b p f g D addr : Nat}
  {t : TaskStruct} {u : Unit} (hfirst : ∀ f, f < 1024 → fixed f ≠ 0)

include hfirst in
theorem Books.counted (hB : Books fixed leak m L) : Counted m := hB.tallied.counted hB.sound.holds hfirst hB.pt1

include hfirst in
theorem Books.booked (hB : Books fixed leak m L) : Booked m L := ⟨hB.sound, hB.counted hfirst⟩

/-- A task that is not stopped changes its references, and its counters with them. -/
theorem Books.pays (hB : Books fixed leak m L) (hp : Pays (m, L) (m', L')) (h' : Sound m' L' ∅) (hb' : Bounded m')
    (hrun : m.cur.state ≠ .stopped) : Books fixed leak m' L' := by
  refine ⟨h', hb', hp.kept.pt1 ▸ hB.pt1, hB.tallied.pays hp hB.sound h', fun q t' ht' hs => ?_⟩
  obtain ⟨t, ht, hst⟩ := hp.stopped q t' ht' hs
  have hq : q ≠ m.current := by
    rintro rfl
    rw [hB.sound.holds.curTask, Option.some.injEq] at ht
    exact hrun (ht ▸ hst)
  exact (hp.others q hq).trans (hB.stopped q t ht hst)

/-- Only the fields of tasks change. -/
theorem Tallied.retask (hX : Tallied fixed leak m) (h : Holds m L) (h' : Holds m' L) (hs : SameTasks m m')
    (hram : m'.ram = m.ram) (hbitmap : m'.bitmap = m.bitmap) : Tallied fixed leak m' := by
  have hheld : heldBy m' = heldBy m := funext (hs.heldBy hram)
  have hkernel : ∀ g, kernelHeld m' g = kernelHeld m g := fun g =>
    kernelHeld_congr h h' rfl fun _ _ _ _ => by rw [hram]
  refine ⟨fun g => ?_, fun g hg q => ?_⟩
  · have he := hX.exact g
    simp only [hheld, hkernel, hbitmap]
    exact he
  · rw [hheld]
    exact hX.apart g hg q

/-- **The scheduler switches.** -/
theorem Books.switch (hB : Books fixed leak m L) (ht : m.tasks p = some t) :
    Books fixed leak { m with current := p, cr3 := L.dir p } L := by
  have h' := hB.sound.switch ht
  have hheld : heldBy { m with current := p, cr3 := L.dir p } = heldBy m :=
    funext fun q => heldBy_same hB.sound.holds h'.holds rfl rfl fun _ _ => rfl
  have hkernel : ∀ g, kernelHeld { m with current := p, cr3 := L.dir p } g = kernelHeld m g := fun g =>
    kernelHeld_congr hB.sound.holds h'.holds rfl fun _ _ _ _ => rfl
  refine ⟨h', hB.bounded, hB.pt1, ⟨fun g => ?_, fun g hg q => ?_⟩, fun q t' ht' hs => ?_⟩
  · simp only [hheld, hkernel]
    exact hB.tallied.exact g
  · rw [hheld]
    exact hB.tallied.apart g hg q
  · rw [hheld]
    exact hB.stopped q t' ht' hs

include hfirst in
/-- **`do_exit`**: the task that stops has no references left. -/
theorem doExit_books (hB : Books fixed leak m L) (hb' : Bounded m') {status : Int}
    (hr : Returns (doExit allocPageFrame status) m u m') : ∃ L', Books fixed leak m' L' := by
  rw [doExit, Returns.bind_iff ((gets_ok _).mpr ⟨rfl, rfl⟩)] at hr
  obtain ⟨_, hr⟩ := check_bind_ok.mp hr
  rw [Returns.bind_iff ((update_ok _ ()).mpr rfl)] at hr
  obtain ⟨_, m2, h2, hr⟩ := (bind_ok _ _ _).mp hr
  rw [(update_ok _ _).mp hr] at hb' ⊢
  have h := hB.sound
  set t0 : TaskStruct := { m.cur with exitStatus := status, state := .stopped } with ht0
  have hsame : SameTasks m (m.setCur t0) := sameTasks_setCur h.holds.cur rfl
  obtain ⟨hs1, _⟩ := h.retask hsame rfl
  have hX1 := hB.tallied.retask h.holds hs1.holds hsame rfl rfl
  obtain ⟨L2, hs2, _, hp2, hempty⟩ := freeMemUsr_pays ⟨hs1, hX1.counted hs1.holds hfirst hB.pt1⟩ h2
  have hX2 := hX1.pays hp2 hs1 hs2
  have hwake := sameTasks_wakeParent m2
  have hs3 := (hs2.retask hwake (wakeParent_ram m2)).1
  have hpt : L2.pt1 = L.pt1 := hp2.kept.pt1
  have hcur : m2.current = m.current := hp2.kept.same.current
  refine ⟨L2, hs3, hb', hpt ▸ hB.pt1, hX2.retask hs2.holds hs3.holds hwake (wakeParent_ram m2) (wakeParent_bitmap m2),
    fun q t' ht' hs => ?_⟩
  rw [hwake.heldBy (wakeParent_ram m2)]
  obtain ⟨t2, ht2, hst2⟩ := wakeParent_stopped ht' hs
  by_cases hq : q = m.current
  · rw [hq, ← hcur, heldBy_current hs2.holds]
    exact funext fun f => held_empty hempty
  · obtain ⟨t1, ht1, hst1⟩ := hp2.stopped q t2 ht2 hst2
    rw [hp2.others q hq]
    have hold : m.tasks q = some t1 := (Function.update_of_ne hq ..).symm.trans ht1
    exact (hsame.heldBy rfl q).trans (hB.stopped q t1 hold hst1)

include hfirst in
/-- **One round of `do_wait`.** -/
theorem waitSlot_books (hB : Books fixed leak m L) (hrun : m.cur.state ≠ .stopped) {statLoc i : Nat}
    (hu : statLoc ≠ NULL → InUser statLoc 4) (hr : Returns (waitSlot allocPageFrame statLoc i) m u m') :
    ∃ L', Books fixed leak m' L' ∧ m'.cur = m.cur := by
  rw [waitSlot, Returns.bind_iff ((gets_ok _).mpr ⟨rfl, rfl⟩), Returns.bind_iff ((gets_ok _).mpr ⟨rfl, rfl⟩)] at hr
  cases ht : m.tasks i with
  | none =>
    rw [ht] at hr
    obtain ⟨_, rfl⟩ := pure_ok.mp hr
    exact ⟨L, hB, rfl⟩
  | some t =>
    rw [ht] at hr
    dsimp only at hr
    by_cases hc : t.ppid = m.cur.pid ∧ t.state = .stopped
    swap
    · rw [onlyIf_neg (decide_eq_false hc)] at hr
      obtain ⟨_, rfl⟩ := pure_ok.mp hr
      exact ⟨L, hB, rfl⟩
    · rw [onlyIf_pos (decide_eq_true hc)] at hr
      have h := hB.sound.holds
      have hic : i ≠ m.current := by
        rintro rfl
        rw [Machine.cur, ht, Option.getD_some] at hrun
        exact hrun hc.2
      have hi0 : i ≠ 0 := by
        intro hi
        have hppid := ((h.task i t ht).boot hi).2.2.2.2
        rw [hppid, h.curOk.pid] at hc
        exact hic (hi.trans hc.1)
      obtain ⟨_, m1, h1, hr⟩ := (bind_ok _ _ _).mp hr
      -- the status is stored
      have hwithin : Within Untouched (onlyIf (decide (statLoc ≠ NULL))
          (storeBytes allocPageFrame statLoc (intByte t.exitStatus) 4)) :=
        Within.onlyIf ((accesses_untouched untouched_allocPageFrame).storeBytes _ _ _)
      have hun := hwithin _ _ _ h1
      obtain ⟨L1, hB1, hp1⟩ := Upholds.onlyIf_of (fun hs => loadSteps_pays.storeBytes (hu hs) _) m L _ m1 (hB.booked hfirst) h1
      have hbooks1 := hB.pays hp1 hB1.1 (keepsBounds hwithin _ _ _ h1 hB.bounded) hrun
      -- and the child leaves, which has no references
      have ht1 : m1.tasks i = some t := by rw [hun.1, ht]
      have hic1 : i ≠ m1.current := by rwa [hun.2.1]
      obtain ⟨hs2, htasks, hcur, _, hram⟩ := freeTask_sound hbooks1.sound ht1 hi0 hic1 hr
      obtain ⟨K, a, b, hF⟩ := freeTask_ok hbooks1.sound ht1 hi0 hic1 hr
      have hempty := hbooks1.stopped i t ht1 hc.2
      refine ⟨L1, ⟨hs2, fun q t' ht' => ?_, hbooks1.pt1, hF.tallied hbooks1.sound hbooks1.tallied hempty,
        fun q t' ht' hs => ?_⟩, ?_⟩
      · rw [htasks] at ht'
        exact hbooks1.bounded.update (fun _ hn => by cases hn) ht'
      · rw [htasks] at ht'
        have hq : q ≠ i := by
          rintro rfl
          rw [Function.update_self] at ht'
          cases ht'
        rw [Function.update_of_ne hq] at ht'
        rw [heldBy_same hbooks1.sound.holds hs2.holds rfl (by rw [htasks, Function.update_of_ne hq]) hram]
        exact hbooks1.stopped q t' ht' hs
      · rw [← hun.cur, Machine.cur, Machine.cur, htasks, hcur, Function.update_of_ne hic1.symm]

include hfirst in
/-- A task that is not stopped changes fields of its own, and does not stop. -/
theorem Books.retask (hB : Books fixed leak m L) (hrun : m.cur.state ≠ .stopped) (ht : t.key = m.cur.key)
    (hgo : t.state ≠ .stopped) (hb : t.InBounds) : Books fixed leak (m.setCur t) L := by
  obtain ⟨h', hp⟩ := retask_pays (hB.booked hfirst) (sameTasks_setCur hB.sound.holds.cur ht) rfl rfl fun q t' ht' hs => by
    by_cases hq : q = m.current
    · subst hq
      have ht : (m.setCur t).tasks m.current = some t := Function.update_self ..
      obtain rfl : t = t' := Option.some.inj (ht.symm.trans ht')
      exact absurd hs hgo
    · exact ⟨t', (Function.update_of_ne hq ..).symm.trans ht', hs⟩
  exact hB.pays hp h' (fun _ _ ht' => hB.bounded.update (fun _ hn => Option.some.inj hn ▸ hb) ht') hrun

include hfirst in
/-- **`do_wait`**, one scan. -/
theorem doWait_books (hB : Books fixed leak m L) (hrun : m.cur.state ≠ .stopped) {statLoc : Nat}
    (hu : findsChild m = true → statLoc ≠ NULL → InUser statLoc 4) (hr : Returns (doWait allocPageFrame statLoc) m u m') :
    ∃ L', Books fixed leak m' L' := by
  rw [doWait, Returns.bind_iff ((gets_ok _).mpr ⟨rfl, rfl⟩)] at hr
  obtain ⟨_, m1, h1, hr⟩ := (bind_ok _ _ _).mp hr
  by_cases hf : findsChild m = true
  · obtain ⟨L1, hB1, _⟩ := loop_ok (fun _ t => ∃ L', Books fixed leak t L' ∧ t.cur = m.cur) h1 ⟨L, hB, rfl⟩ <| by
      rintro i t t' _ ⟨L1, hB1, hcur⟩ hround
      obtain ⟨L2, hB2, hcur2⟩ := waitSlot_books hfirst hB1 (hcur ▸ hrun) (hu hf) hround
      exact ⟨L2, hB2, hcur2.trans hcur⟩
    rw [onlyIf_neg (by rw [hf]; rfl)] at hr
    obtain ⟨_, rfl⟩ := pure_ok.mp hr
    exact ⟨L1, hB1⟩
  · have hf := Bool.of_not_eq_true hf
    obtain rfl := scan_skip hf h1
    rw [onlyIf_pos (by rw [hf]; rfl)] at hr
    rw [(update_ok _ _).mp hr]
    exact ⟨L, hB.retask hfirst hrun rfl (by simp) hB.bounded.cur⟩

include hfirst in
/-- **`do_fork`.** -/
theorem doFork_books (hB : Books fixed leak m L)
    (hroom : ∀ f, f ≠ 0 → Room m f) (hrun : m.cur.state ≠ .stopped) (hr : Returns (doFork allocPageFrame) m u m') :
    ∃ L', Books fixed (fun f => leak f + Act.fork.leaks m f) m' L' := by
  have h := hB.sound
  have hc := hB.counted hfirst
  have hA := hc.hands h.holds
  have hA1 := hc.hands_taken h.holds
  -- the books after the first page, and after the second
  have hnext : ∀ {m1 K k f}, NewPage allocPageFrame m L m1 K k f → Counted m1 := fun hN => hN.counted h hA (hA1 _) hc
  obtain ⟨m1, L1, m2, L2, K, a, f, b, D, hF, h0, rfl⟩ := (doFork_ok h hA hA1 fun m1 K k f hN => by
    obtain ⟨L1, _, hs1⟩ := hN.kernelPage h hA (hA1 f)
    exact ⟨(hnext hN).hands hs1.holds, (hnext hN).hands_taken hs1.holds⟩).mp hr
  have hX1 := hF.task.tallied hF.taskPage h hF.taskSound hA (hA1 f) hB.tallied
  have hc1 := hnext hF.task
  have hA2 := hc1.hands hF.taskSound.holds
  have hA3 := hc1.hands_taken hF.taskSound.holds
  have hX2 := hF.dir.tallied hF.dirPage hF.taskSound hF.dirSound hA2 (hA3 D) hX1
  have hnew : ∀ g, m2.bitmap g = 1 ∨ m2.bitmap g = m.bitmap g := by
    intro g
    obtain ⟨_, _, hb1⟩ := hF.task.bitmap hA (hA1 f)
    obtain ⟨_, _, hb2⟩ := hF.dir.bitmap hA2 (hA3 D)
    rw [hb2, hb1]
    split
    · exact Or.inl rfl
    · split
      · exact Or.inl rfl
      · exact Or.inr rfl
  have hforked := hF.forked h h0
  refine ⟨_, hF.sound h0, hforked.bounded hB.bounded, ?_, hB.tallied.forked hF h h0 hX2 hnew hroom (hfirst 0 (by decide)),
    fun q t' ht' hs => ?_⟩
  · rw [hforked.pt1]
    exact hB.pt1
  · rw [hforked.tasks] at ht'
    rw [hF.heldBy h h0]
    by_cases hq : q = emptySlot m
    · subst hq
      rw [Function.update_self] at ht'
      obtain rfl := Option.some.inj ht'
      exact absurd hs hrun
    · rw [Function.update_of_ne hq] at ht'
      rw [if_neg hq]
      exact hB.stopped q t' ht' hs

include hfirst in
/-- A page fault of user mode. -/
theorem userFault_pays (hB : Books fixed leak m L) (hlt : addr < 2 ^ 32) (hr : Returns (userFault allocPageFrame addr) m u m') :
    ∃ L', Sound m' L' ∅ ∧ Pays (m, L) (m', L') := by
  rw [userFault, Returns.bind_iff ((gets_ok _).mpr ⟨rfl, rfl⟩)] at hr
  exact pageFault_pays (hB.booked hfirst) hlt hB.bounded.cur.1 hr

include hfirst in
/-- **One step keeps the books.** -/
theorem step_books {act : Act} {es : List Empty} (hB : Books fixed leak m L) (hc : act.Roomy m)
    (hst : step allocPageFrame m act = some (m', es)) : ∃ L', Books fixed (fun f => leak f + act.leaks m f) m' L' := by
  obtain ⟨hproper, hroom⟩ := hc
  have hb' : act ≠ .fork → Bounded m' := fun hne =>
    run_bounded hB.sound untouched_allocPageFrame hB.bounded hproper hne hst
  obtain ⟨hen, hr⟩ := step_ok.mp hst
  have hgo : act.enabled m = true → (∀ next, act ≠ .switch next) → m.cur.state ≠ .stopped := fun he hne => by
    have hs : m.cur.state = .running := by
      cases act with
      | switch next => exact absurd rfl (hne next)
      | store addr b => exact of_decide_eq_true (Bool.and_eq_true_iff.mp he).1
      | load addr => exact of_decide_eq_true (Bool.and_eq_true_iff.mp he).1
      | _ => exact of_decide_eq_true he
    rw [hs]
    decide
  have hpays : m.cur.state ≠ .stopped → act ≠ .fork → (∃ L', Sound m' L' ∅ ∧ Pays (m, L) (m', L')) →
      ∃ L', Books fixed leak m' L' := fun hrun hne ⟨L', h', hp⟩ => ⟨L', hB.pays hp h' (hb' hne) hrun⟩
  cases act with
  | «fork» => exact doFork_books hfirst hB (hroom rfl) (hgo hen (by simp)) hr
  | switch next =>
    obtain ⟨t, ht, _⟩ := Option.any_eq_true _ _ |>.mp hen
    rw [(switchTask_ok hB.sound.holds ht).mp hr]
    exact ⟨L, hB.switch ht⟩
  | exit status => exact doExit_books hfirst hB (hb' (by simp)) hr
  | wait statLoc => exact doWait_books hfirst hB (hgo hen (by simp)) hproper hr
  | execve file =>
    obtain ⟨_, m1, h1, hr⟩ := (bind_ok _ _ _).mp hr
    obtain ⟨_, rfl⟩ := pure_ok.mp hr
    have hbelow : ∀ f, file = some f → f.Below := by
      rintro f rfl
      exact hproper
    exact hpays (hgo hen (by simp)) (by simp) (doExecve_pays (hB.booked hfirst) hbelow h1)
  | sbrk incr =>
    obtain ⟨_, m1, h1, hr⟩ := (bind_ok _ _ _).mp hr
    obtain ⟨_, rfl⟩ := pure_ok.mp hr
    have hrun := hgo hen (by simp)
    have hb1 := hb' (by simp)
    rcases doSbrk_ok h1 with ⟨_, n, rfl⟩ | ⟨_, rfl⟩
    · have hin := hb1.cur
      rw [setCur_cur] at hin
      exact ⟨L, hB.retask hfirst hrun rfl hrun hin⟩
    · exact ⟨L, hB⟩
  | read buf bytes =>
    obtain ⟨L', hB', hp⟩ := loadSteps_pays.storeBytes hproper _ m L () m' (hB.booked hfirst) hr
    exact hpays (hgo hen (by simp)) (by simp) ⟨L', hB'.1, hp⟩
  | store addr b =>
    have hlt : addr < 2 ^ 32 := of_decide_eq_true (Bool.and_eq_true_iff.mp hen).2
    refine hpays (hgo hen (by simp)) (by simp) ?_
    change Returns (userStore allocPageFrame addr b) m () m' at hr
    rw [userStore, Returns.bind_iff ((gets_ok _).mpr ⟨rfl, rfl⟩)] at hr
    cases hp : permits m addr true with
    | true =>
      rw [hp, if_pos rfl] at hr
      have ha : addr < KERNEL_MEMORY := hproper.resolve_right (by rw [hp]; simp)
      obtain ⟨L', hB', hp⟩ := loadSteps_pays.poke addr b ha m L () m' (hB.booked hfirst) hr
      exact ⟨L', hB'.1, hp⟩
    | false =>
      rw [hp, if_neg Bool.false_ne_true] at hr
      exact userFault_pays hfirst hB hlt hr
  | load addr =>
    have hlt : addr < 2 ^ 32 := of_decide_eq_true (Bool.and_eq_true_iff.mp hen).2
    refine hpays (hgo hen (by simp)) (by simp) ?_
    change Returns (userLoad allocPageFrame addr) m () m' at hr
    rw [userLoad, Returns.bind_iff ((gets_ok _).mpr ⟨rfl, rfl⟩)] at hr
    cases hp : permits m addr false with
    | true =>
      rw [hp, Bool.not_true, onlyIf_neg rfl] at hr
      obtain ⟨_, rfl⟩ := pure_ok.mp hr
      exact ⟨L, hB.sound, Std.Refl.refl _⟩
    | false =>
      rw [hp, Bool.not_false, onlyIf_pos rfl] at hr
      exact userFault_pays hfirst hB hlt hr

end Books

/-! ## Runs -/

section Runs

variable {img : Image} {tag : MmapTag} {table : FrameTable} {ram : Nat → Nat → Word} {xs : List (Step Machine Act Empty)}
  {s : Machine}

/-- The references that are there from the start: the counters that `init_phys_mm` leaves. -/
def permanent (tag : MmapTag) (table : FrameTable) (f : Nat) : Nat := ((initPhysMm tag table).counter f).toNat

theorem boot_books : Books (permanent tag table) (fun _ => 0) (boot img tag table ram) (bootLayout img) := by
  have h := boot_sound img tag table ram
  have hheld : ∀ p, heldBy (boot img tag table ram) p = fun _ => 0 := fun p => funext fun _ => boot_heldBy p
  refine ⟨h, boot_bounded img tag table ram, img.table_lt, ⟨fun f => ?_, fun f _ p => boot_heldBy p⟩, fun p _ _ _ => hheld p⟩
  have htotal : total (Finset.range MAX_TASKS) (heldBy (boot img tag table ram)) f = 0 :=
    Finset.sum_eq_zero fun p _ => boot_heldBy p
  have hkernel : kernelHeld (boot img tag table ram) f = 0 := kernelHeld_none h.holds rfl
  simp only [htotal, hkernel, Nat.add_zero]
  rfl

theorem permanent_first {f : Nat} (hf : f < 1024) : permanent tag table f ≠ 0 := by
  have hcount := @boot_first ⟨0, 1, KERNEL_MEMORY, by decide, by decide, by decide, le_refl _, by decide⟩ tag table
    (fun _ _ => 0#32) f hf
  exact toNat_ne_zero.mpr hcount

/-- How often the forks of a run count the frame `f` for entries that are not present. -/
def leaked (xs : List (Step Machine Act Empty)) (f : Nat) : Nat := (xs.map fun x => x.act.leaks x.before f).sum

/-- **The books of a run.** -/
theorem run_books (hrun : Run (step allocPageFrame) (boot img tag table ram) xs s) (hC : ∀ x ∈ xs, x.act.Roomy x.before) :
    ∃ L, Books (permanent tag table) (leaked xs) s L := by
  refine hrun.induct (C := fun m a => a.Roomy m) (fun xs m => ∃ L, Books (permanent tag table) (leaked xs) m L)
    ⟨_, boot_books⟩ ?_ hC
  rintro xs m a m' es ⟨L, hB⟩ hc hst
  obtain ⟨L', hB'⟩ := step_books (fun f => permanent_first) hB hc hst
  have hleak : leaked (xs ++ [⟨m, a, es, m'⟩]) = fun f => leaked xs f + a.leaks m f := by
    funext f
    rw [leaked, List.map_append, List.sum_append]
    simp [leaked]
  exact ⟨L', hleak ▸ hB'⟩

/-- **The frame table over a run** whose forks leave room in the counters: the counter of a frame is what `init_phys_mm`
left, the references of the kernel half and of all tasks, and what the forks counted for entries that are not present.
So a frame that any address space reaches is never handed out. -/
theorem frames_counted (hrun : Run (step allocPageFrame) (boot img tag table ram) xs s)
    (hC : ∀ x ∈ xs, x.act.Roomy x.before) :
    (∀ f, (s.bitmap f).toNat =
      permanent tag table f + leaked xs f + kernelHeld s f + total (Finset.range MAX_TASKS) (heldBy s) f) ∧
      ∀ f s', Returns allocPageFrame s f s' → ¬ Reaches s f := by
  obtain ⟨L, hB⟩ := run_books hrun hC
  refine ⟨hB.tallied.exact, fun f s' hr => ?_⟩
  exact (((hB.counted fun f => permanent_first).hands hB.sound.holds).take hr).2.2.2

/-- The first fork leaves room. -/
theorem first_roomy {f t : Nat} {m : Machine} (hS : Starts smallBoot f t) :
    ∀ x ∈ ([⟨smallBoot, .execve (some blankElf), [], smallBoot.first f t⟩,
      ⟨smallBoot.first f t, .fork, [], m⟩] : List (Step Machine Act Empty)), x.act.Roomy x.before := by
  intro x hx
  simp only [List.mem_cons, List.not_mem_nil, or_false] at hx
  rcases hx with rfl | rfl
  · exact ⟨blankElf_below, nofun⟩
  · refine ⟨trivial, fun _ g hg _ => ?_⟩
    have hle : (smallBoot.first f t).bitmap g ≤ 1 := hS.first_le_one fun _ => (by decide : (0 : UInt8) ≤ 1)
    have hle' := UInt8.le_iff_toNat_le.mp hle
    obtain ⟨L, h, _, _, hc⟩ := hS.first_sound
    have hheld : held (smallBoot.first f t).ram smallImage.directory g ≤ ((smallBoot.first f t).bitmap g).toNat :=
      hc.held_le h.holds
    have hstale : stale (smallBoot.first f t).ram smallImage.directory g = if g = smallImage.table then 1 else 0 :=
      hS.stale_first hg
    rw [show (1 : UInt8).toNat = 1 from rfl] at hle'
    show ((smallBoot.first f t).bitmap g).toNat + held (smallBoot.first f t).ram smallImage.directory g +
      stale (smallBoot.first f t).ram smallImage.directory g < 255
    rw [hstale]
    split <;> omega

/-- A program starts and forks. -/
theorem frames_counted_fork : ∃ xs s, Run (step allocPageFrame) smallBoot xs s ∧
    xs.map (fun x => x.after.current) = [0, 1] ∧ (∀ x ∈ xs, x.act.Roomy x.before) ∧
    (∀ f, (s.bitmap f).toNat =
      permanent alignedMap ⟨fun _ => 0, []⟩ f + leaked xs f + kernelHeld s f + total (Finset.range MAX_TASKS) (heldBy s) f) ∧
      ∀ f s', Returns allocPageFrame s f s' → ¬ Reaches s f := by
  obtain ⟨f, t, L, m1, L1, m2, L2, K, a, fr, b, D, m, hS, hF, hrun⟩ := small_fork serves_allocPageFrame
  have hroomy := first_roomy (m := m) hS
  exact ⟨_, m, hrun, by simp [hF.forked.current]; rfl, hroomy, frames_counted hrun hroomy⟩

/-- The program of an action loads below the kernel and keeps off page tables, and a fork copies no entry that is not
present and names a frame. -/
def Act.Clean (m : Machine) (a : Act) : Prop :=
  a.Proper m ∧ (a = .fork → ∀ f, f ≠ 0 → stale m.ram m.cr3 f = 0)

theorem Act.Clean.roomy {fixed : Nat → Nat} {m : Machine} {L : Layout} {a : Act} (hc : a.Clean m)
    (hB : Books fixed (fun _ => 0) m L) : a.Roomy m ∧ a.leaks m = fun _ => 0 := by
  refine ⟨⟨hc.1, fun ha f hf hpos => ?_⟩, funext fun f => ?_⟩
  · rw [hc.2 ha f hf, Nat.add_zero] at hpos ⊢
    have hcur := heldBy_current hB.sound.holds
    have hheld : heldBy m m.current f ≠ 0 := by
      rw [hcur]
      omega
    have hle := hB.tallied.room hB.sound hheld
    have hone := (held_le_one (f := f) hB.sound.holds.curSpace).1
    rw [MAX_TASKS] at hle
    omega
  · cases a with
    | «fork» =>
      by_cases hf : f = 0
      · exact if_pos hf
      · exact (if_neg hf).trans (hc.2 rfl f hf)
    | _ => rfl

/-- **The frame counters are exact**, and none wraps, in every run whose forks copy no stale entry. A frame of a user page
or of a page table of the user half is counted at most once for each task. -/
theorem frames_exact (hrun : Run (step allocPageFrame) (boot img tag table ram) xs s)
    (hC : ∀ x ∈ xs, x.act.Clean x.before) :
    (∀ f, (s.bitmap f).toNat = permanent tag table f + kernelHeld s f + total (Finset.range MAX_TASKS) (heldBy s) f) ∧
      ∀ p f, heldBy s p f ≠ 0 → (s.bitmap f).toNat ≤ MAX_TASKS := by
  have hbooks : ∃ L, Books (permanent tag table) (fun _ => 0) s L := by
    refine hrun.inv (C := fun m a => a.Clean m) (fun m => ∃ L, Books (permanent tag table) (fun _ => 0) m L)
      ⟨_, boot_books⟩ ?_ hC
    rintro m a m' es ⟨L, hB⟩ hc hst
    obtain ⟨hroomy, hleak⟩ := hc.roomy hB
    obtain ⟨L', hB'⟩ := step_books (fun f => permanent_first) hB hroomy hst
    rw [hleak] at hB'
    exact ⟨L', hB'⟩
  obtain ⟨L, hB⟩ := hbooks
  exact ⟨fun f => hB.tallied.exact f, fun p f hf => hB.tallied.room hB.sound hf⟩

/-- An empty file is no ELF file; `load_bin` maps page 0 for it, so directory entry 0 is not stale any more. -/
def emptyBin : File := ⟨0, fun _ => 0⟩

theorem emptyBin_below : emptyBin.Below := by
  rw [File.Below, if_neg (by decide)]
  exact Nat.zero_le _

theorem loadFile_empty {m : Machine} {L : Layout} {f t : Nat} (h : Sound m L ∅) (hno : present (m.pde 0) = false)
    (hf : Returns allocPageFrame m f (m.setCount f 1)) (hfresh : ¬ Reaches m f)
    (hA1 : Hands allocPageFrame (m.setCount f 1))
    (ht : Returns allocPageFrame (m.setCount f 1) t ((m.setCount f 1).setCount t 1)) :
    ∃ c, c.state = m.cur.state ∧ Returns (loadFile allocPageFrame emptyBin) m () ((m.paged 0 f t).setCur c) := by
  have hpage : Returns (allocPages allocPageFrame 0 emptyBin.size (PG_USER ||| PG_RW)) m () (m.paged 0 f t) := by
    refine loop_eq (fun i => if i = 0 then m else m.paged 0 f t) fun i hi => ?_
    obtain rfl : i = 0 := by
      rw [show emptyBin.size / PAGE_SIZE + 1 - 0 / PAGE_SIZE = 1 by decide] at hi
      omega
    obtain ⟨h1, _⟩ := h.taken hfresh
    rw [if_pos rfl, if_neg (by decide), allocPageAt,
      Returns.bind_iff ((pagePresent_ok h.holds.env (by decide)).mpr ⟨rfl, rfl⟩),
      if_neg (by rw [show m.pde ((0 / PAGE_SIZE + 0) * PAGE_SIZE) = m.pde 0 from rfl, hno]; simp), Returns.bind_iff hf]
    refine (bind_ok _ _ _).mpr ⟨0, _, ?_, pure_ok.mpr ⟨rfl, rfl⟩⟩
    exact (mapPage_absent h1 (by decide) hno plain_userRw hA1).mpr ⟨rfl, t, ht, rfl⟩
  have hstore : ∀ s : Machine, Returns (storeBytes allocPageFrame 0 emptyBin.bytes emptyBin.size) s () s := fun s =>
    pure_ok.mpr ⟨rfl, rfl⟩
  refine ⟨{ m.cur with dataEnd := 0, stackFrame := { m.cur.stackFrame with eip := 0 } }, rfl, ?_⟩
  rw [loadFile, if_neg (by decide), loadBin, Returns.bind_iff hpage, Returns.bind_iff ((update_ok _ ()).mpr rfl),
    Returns.bind_iff (hstore _), setEip, update_ok, setCur_cur]
  simp only [Machine.setCur, Function.update_idem]
  rfl

/-- The page of the empty file takes the place of the entry that `init_mm` left, so nothing is stale. -/
theorem stale_empty {f t f' t' g : Nat} (hS : Starts smallBoot f t) (hS' : Starts (smallBoot.stacked f t) f' t')
    {L : Layout} (h : Holds (smallBoot.stacked f t) L) (hg : g ≠ 0) :
    stale ((smallBoot.stacked f t).paged 0 f' t').ram smallBoot.cr3 g = 0 := by
  have hfirst : stale (smallBoot.stacked f t).ram smallBoot.cr3 g = if g = smallImage.table then 1 else 0 := hS.stale_first hg
  have hpde : (smallBoot.stacked f t).pde 0 = absent (mkEntry smallImage.table 3#32) := by
    have hdir := hS.dir (boot_sound _ _ _ _).holds 0
    rw [if_neg (by decide)] at hdir
    exact hdir.trans (boot_directory _ _ _ _ 0)
  have hnew := @stale_paged _ _ 0 f' t' g h (by decide) (by rw [hpde]; decide) hS'.table_lt hS'.fresh.2.2.2.2.2.1 hg
  have hname : frameOf (absent (mkEntry smallImage.table 3#32)) = smallImage.table := by decide
  have hcr3 : (smallBoot.stacked f t).cr3 = smallBoot.cr3 := rfl
  rw [hpde, hname, hcr3, hfirst] at hnew
  simp only [eq_comm (a := smallImage.table)] at hnew
  omega

/-- The empty file runs, and leaves room for a fork. -/
theorem empty_starts : ∃ s L, step allocPageFrame smallBoot (.execve (some emptyBin)) = some (s, []) ∧ Booked s L ∧
    s.cur.state = .running ∧ emptySlot s = 1 ∧ (∀ g, s.bitmap g ≤ 1) ∧ (∀ g, g ≠ 0 → stale s.ram s.cr3 g = 0) ∧
      12 ≤ (freeFrames s).card := by
  have hA := serves_allocPageFrame
  have hsmall : ∀ i, (⟨fun _ => 0, []⟩ : FrameTable).counter i ≤ 1 := fun _ => (by decide : (0 : UInt8) ≤ 1)
  obtain ⟨f, t, hS⟩ := small_starts
  have hB : Booked smallBoot (bootLayout smallImage) := ⟨boot_sound _ _ _ _, boot_counted⟩
  have hno : ∀ d, d < 768 → present (smallBoot.ram smallBoot.cr3 d) = false := fun d hd => boot_absent _ _ _ _ hd
  -- the stack page, and then page 0
  obtain ⟨L1, h1, _, _, hc1⟩ := hS.stacked_sound hB.1 hB.2 (hno 767 (by decide))
  have hidle1 := hc1.idle h1.holds
  have hfree1 : 14 ≤ (freeFrames (smallBoot.stacked f t)).card := hS.first_free (small_freeFrames fun _ _ => 0#32)
  obtain ⟨f', t', hS'⟩ := exists_starts hidle1 (by omega)
  have hne := hS'.table_ne h1.holds
  have hno0 : present ((smallBoot.stacked f t).pde 0) = false := by
    have hdir := hS.dir hB.1.holds 0
    rw [if_neg (by decide)] at hdir
    exact (congrArg present hdir).trans (hno 0 (by decide))
  obtain ⟨c, hstate, hload⟩ := loadFile_empty h1 hno0 (hA.takes _ _ _ hS'.frame) hS'.fresh.2.2.1
    (hA.hands _ (@idle_setCount _ f' hidle1)) (hA.takes _ _ _ hS'.table)
  have hexec := doExecve_first hB.1 hno (hA.takes _ _ _ hS.frame) hS.fresh.2.2.1
    (hA.hands _ (@idle_setCount _ f (hB.2.idle hB.1.holds))) (hA.takes _ _ _ hS.table) hload
  rw [setCur_cur] at hexec
  have hbelow : ∀ g, some emptyBin = some g → g.Below := fun g hg => Option.some.inj hg ▸ emptyBin_below
  obtain ⟨L, h, hpays⟩ := doExecve_pays hB hbelow hexec
  have hroom := paged_room (m := smallBoot.stacked f t) (a := 0) (f := f') hne
  refine ⟨_, L, step_ok.mpr ⟨rfl, (bind_ok _ _ _).mpr ⟨_, _, hexec, pure_ok.mpr ⟨rfl, rfl⟩⟩⟩, hpays.booked hB h, ?_,
    emptySlot_one h.holds.init rfl, fun g => paged_le_one (a := 0) (f := f') hne fun g => hS.first_le_one hsmall,
    fun g hg => stale_empty hS hS' h1.holds hg, by show 12 ≤ (freeFrames ((smallBoot.stacked f t).paged 0 f' t')).card; omega⟩
  rw [setCur_cur]
  exact hstate

/-- A program starts, has nothing stale, and forks. -/
theorem frames_exact_fork : ∃ xs s, Run (step allocPageFrame) smallBoot xs s ∧ s.current = 1 ∧ (s.tasks 0).isSome ∧
    (∀ x ∈ xs, x.act.Clean x.before) ∧
    (∀ f, (s.bitmap f).toNat = permanent alignedMap ⟨fun _ => 0, []⟩ f + kernelHeld s f +
      total (Finset.range MAX_TASKS) (heldBy s) f) ∧
      ∀ p f, heldBy s p f ≠ 0 → (s.bitmap f).toNat ≤ MAX_TASKS := by
  obtain ⟨s, L, hstep, ⟨h, hc⟩, hrun, hslot, hone, hstale, hfree⟩ := empty_starts
  obtain ⟨m1, L1, m2, L2, K, a, fr, b, D, m, hF⟩ := first_fork (S := ∅) serves_allocPageFrame h hc hrun hslot hone
    (fun g hg => (hstale g hg).trans_le (Nat.zero_le _)) (by rw [Finset.card_empty]; omega)
  have hruns : Run (step allocPageFrame) smallBoot [⟨smallBoot, .execve (some emptyBin), [], s⟩, ⟨s, .fork, [], m⟩] m :=
    Run.snoc (Run.snoc Run.refl hstep) hF.step
  have hclean : ∀ x ∈ ([⟨smallBoot, .execve (some emptyBin), [], s⟩, ⟨s, .fork, [], m⟩] : List (Step Machine Act Empty)),
      x.act.Clean x.before := by
    intro x hx
    simp only [List.mem_cons, List.not_mem_nil, or_false] at hx
    rcases hx with rfl | rfl
    · exact ⟨emptyBin_below, nofun⟩
    · exact ⟨trivial, fun _ => hstale⟩
  exact ⟨_, m, hruns, hF.forked.current, hF.sound'.holds.init, hclean, frames_exact hruns hclean⟩

end Runs

end Raampjes.Mm
