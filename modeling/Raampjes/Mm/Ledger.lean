import Raampjes.Mm.Children

/-!
# The frame table along the running task's programs

- `Pays`: the counters follow the references of the running task, and nobody else's change; `Pays.counted`: so they stay
  covered;
- `Freed.pays`, `Filled.pays`, `tableCopy_pays`, `pageCopy_pays`: the single changes;
- `loadSteps_pays`, `pageFault_pays`, `freeMemUsr_pays`, `doExecve_pays`: the programs, with `alloc_page_frame` itself.
-/

namespace Raampjes.Mm

open Progs Refs Sched

/-- The tasks, the kernel half and the other tasks' references are kept, and the counters follow the running task's. -/
structure Pays (c c' : Machine × Layout) : Prop where
  kept : Kept c c'
  kernel : KernelKept c.1 c.2 c'.1
  others : ∀ q, q ≠ c.1.current → heldBy c'.1 q = heldBy c.1 q
  balanced : Balanced (held c.1.ram c.1.cr3) (held c'.1.ram c.1.cr3) (fun f => (c.1.bitmap f).toNat)
    fun f => (c'.1.bitmap f).toNat
  /-- A frame that is in use elsewhere does not become one of the task. -/
  fresh : ∀ f, c.1.bitmap f ≠ 0 → held c.1.ram c.1.cr3 f = 0 → held c'.1.ram c.1.cr3 f = 0
  /-- No task stops. -/
  stopped : ∀ q t', c'.1.tasks q = some t' → t'.state = .stopped → ∃ t, c.1.tasks q = some t ∧ t.state = .stopped

instance : Std.Refl Pays := ⟨fun c => ⟨Std.Refl.refl c, ⟨fun _ _ => rfl, fun _ _ _ _ _ => rfl⟩, fun _ _ => rfl,
  Balanced.refl _ _, fun _ _ h0 => h0, fun _ t' ht hs => ⟨t', ht, hs⟩⟩⟩

instance : IsTrans (Machine × Layout) Pays := by
  refine ⟨fun a b c h h' => ⟨IsTrans.trans _ _ _ h.kept h'.kept, ⟨fun i hi => ?_, fun K j hK hj hp => ?_⟩, fun q hq => ?_,
    ?_, fun f hf h0 => ?_, fun q t' ht hs => ?_⟩⟩
  · rw [← h.kernel.low i hi, ← h.kept.pt1]
    exact h'.kernel.low i hi
  · have hnext := h'.kernel.slot K j (h.kept.ktab.trans hK) hj hp
    rw [hnext] at hp ⊢
    exact h.kernel.slot K j hK hj hp
  · have hcur : b.1.current = a.1.current := h.kept.same.current
    rw [h'.others q (by rw [hcur]; exact hq), h.others q hq]
  · have hcr3 : b.1.cr3 = a.1.cr3 := h.kept.same.cr3
    have hb := h'.balanced
    rw [hcr3] at hb
    exact h.balanced.trans hb
  · have hcr3 : b.1.cr3 = a.1.cr3 := h.kept.same.cr3
    have h1 := h.fresh f hf h0
    have hcount : b.1.bitmap f = a.1.bitmap f := by
      have hb := h.balanced f
      rw [h0, h1, Nat.add_zero, Nat.add_zero] at hb
      exact UInt8.toNat_inj.mp hb
    have h2 := h'.fresh f (hcount ▸ hf)
    rw [hcr3] at h2
    exact h2 h1
  · obtain ⟨t1, ht1, hs1⟩ := h'.stopped q t' ht hs
    exact h.stopped q t1 ht1 hs1

/-- The layout holds, and the counters cover the references. -/
def Booked (m : Machine) (L : Layout) : Prop := Sound m L ∅ ∧ Counted m

section Pays

variable {m m' m1 : Machine} {L L' L1 : Layout} {K k a d f g new addr v : Nat} {flags : Word} {u : Unit}

/-- **The counters stay covered.** -/
theorem Pays.counted (hp : Pays (m, L) (m', L')) (h : Sound m L ∅) (h' : Sound m' L' ∅) (hc : Counted m) : Counted m' := by
  have hcur : m'.current = m.current := hp.kept.same.current
  have hcr3 : m'.cr3 = m.cr3 := hp.kept.same.cr3
  have hcur' := heldBy_current h'.holds
  rw [hcur, hcr3] at hcur'
  refine Covered.balanced hc (task_mem h.holds h.holds.curTask) (fun q _ hq f => congrFun (hp.others q hq) f) ?_
    fun f hf => hp.kernel.refers hp.kept.same.cr3 hp.kept.high h.holds hf
  rw [heldBy_current h.holds, hcur']
  exact hp.balanced

theorem Pays.booked (hp : Pays (m, L) (m', L')) (hB : Booked m L) (h' : Sound m' L' ∅) : Booked m' L' :=
  ⟨h', hp.counted hB.1 h' hB.2⟩

/-- A change that leaves the other tasks alone. -/
theorem Local.pays (hl : Local m L m' L') (h : Sound m L ∅) (h' : Sound m' L' ∅) (htasks : m'.tasks = m.tasks)
    (hk : KernelKept m L m')
    (hb : Balanced (held m.ram m.cr3) (held m'.ram m.cr3) (fun f => (m.bitmap f).toNat) fun f => (m'.bitmap f).toNat)
    (hle : ∀ f, m.bitmap f ≠ 0 → held m.ram m.cr3 f = 0 → m'.bitmap f ≤ m.bitmap f) : Pays (m, L) (m', L') := by
  refine ⟨hl.kept, hk, fun _ hq => hl.heldBy h.holds h'.holds hq, hb, fun f hf h0 => ?_, fun _ t' ht hs =>
    ⟨t', htasks ▸ ht, hs⟩⟩
  have hcount : (m'.bitmap f).toNat + held m.ram m.cr3 f = (m.bitmap f).toNat + held m'.ram m.cr3 f := hb f
  have hzero : held m.ram m.cr3 f = 0 := h0
  have hdrop := UInt8.le_iff_toNat_le.mp (hle f hf hzero)
  show held m'.ram m.cr3 f = 0
  omega

/-- The kernel maps the first 4 MiB. -/
theorem Holds.walk_first (h : Holds m L) (hf : f < 1024) : walk m.ram m.cr3 (KERNEL_MEMORY + f * PAGE_SIZE) = some f := by
  have hD := h.curDir
  have hd : dirIndex (KERNEL_MEMORY + f * PAGE_SIZE) = 768 := by
    rw [dirIndex, KERNEL_MEMORY, PAGE_SIZE]
    omega
  have hi : pageTableIndex (KERNEL_MEMORY + f * PAGE_SIZE) = f := by
    rw [pageTableIndex, KERNEL_MEMORY, PAGE_SIZE]
    omega
  obtain ⟨hp, hframe⟩ := h.low f hf
  refine walk_eq_some.mpr ?_
  rw [hd, hi, hD.low_frame]
  exact ⟨hD.low, hp, hframe⟩

theorem drop_other (hne : f ≠ g) : (m.drop g).bitmap f = m.bitmap f := by
  rcases drop_cases m g with ⟨_, he⟩ | ⟨_, he⟩
  · rw [he, setCount_of_ne _ _ _ hne]
  · rw [he]

theorem drop_self (hne : m.bitmap f ≠ 0) : ((m.drop f).bitmap f).toNat = (m.bitmap f).toNat - 1 := by
  have hpos := toNat_ne_zero.mpr hne
  have hle : (1 : UInt8) ≤ m.bitmap f := UInt8.le_iff_toNat_le.mpr (Nat.one_le_iff_ne_zero.mpr hpos)
  rw [Machine.drop, if_pos hne, setCount_self, UInt8.toNat_sub_of_le _ _ hle]
  rfl

theorem drop_le (m : Machine) (g f : Nat) : (m.drop g).bitmap f ≤ m.bitmap f := by
  by_cases hfg : f = g
  · subst hfg
    rcases drop_cases m f with ⟨hne, _⟩ | ⟨_, he⟩
    · rw [UInt8.le_iff_toNat_le, drop_self hne]
      exact Nat.sub_le _ _
    · rw [he]
      exact UInt8.le_refl _
  · rw [drop_other hfg]
    exact UInt8.le_refl _

/-- A copy takes one frame, and no other counter rises. -/
theorem unshared_le (hne : f ≠ new) : (m.unshared K k addr new flags).bitmap f ≤ m.bitmap f := by
  rw [unshared_bitmap]
  refine UInt8.le_trans (drop_le _ _ _) ?_
  rw [setCount_of_ne _ _ _ hne]
  exact UInt8.le_refl _

/-! ## The single changes -/

/-- A page that is freed. -/
theorem Freed.pays (hF : Freed m L addr m' L') (hB : Booked m L) (ha : addr < KERNEL_MEMORY) :
    Sound m' L' ∅ ∧ Pays (m, L) (m', L') := by
  obtain ⟨h, hc⟩ := hB
  obtain ⟨h', hl⟩ := hF.sound h ha
  have hk := hF.kernelKept h ha
  have hb := hF.balanced h ha hc
  refine ⟨h', ?_⟩
  cases hF with
  | gone hno => exact Std.Refl.refl _
  | own hpage hs => exact hl.pays h h' (drop_tasks ..) hk hb fun f _ _ => drop_le _ _ _
  | copied K k new hpage hs hK hk' hlt hzero hfresh =>
    refine hl.pays h h' ?_ hk hb fun f hf h0 => ?_
    · simp only [Machine.unmapped, Machine.unshared, setWord_tasks, drop_tasks, setFrame_tasks, setCount_tasks]
    · have hpos : 0 < held m.ram m.cr3 (frameOf (m.pte addr)) :=
        held_pos_of_page (mem_pagesOf ha (walk_eq_some.mpr ⟨hpage.2.2.1, hpage.2.2.2, rfl⟩))
      have hne : f ≠ new := by
        rintro rfl
        rw [drop_other fun he => by rw [he] at h0; omega] at hzero
        exact hf hzero
      exact UInt8.le_trans (unshared_le hne) (drop_le _ _ _)

theorem unshared_tasks : (m.unshared K k addr new flags).tasks = m.tasks := by
  simp only [Machine.unshared, setWord_tasks, drop_tasks, setFrame_tasks, setCount_tasks]

/-- A page table that is copied. -/
theorem tableCopy_pays (hB : Booked m L) (hK : L.ktab = some K) (hk : scan (m.ram K) 1024 = some k) (hd : d < 768)
    (hp : present (m.ram m.cr3 d) = true) (hlt : new < 2 ^ 20) (hzero : m.bitmap new = 0) (hfresh : ¬ Reaches m new) :
    Sound (m.unshared K k (window d) new flags) (L.use new (.table d)) ∅ ∧
      Pays (m, L) (m.unshared K k (window d) new flags, L.use new (.table d)) := by
  obtain ⟨h, hc⟩ := hB
  obtain ⟨h', hl⟩ := h.unsharedTable (e := flags) hK hk hd hp hlt hfresh
  have hx := Spot.window h.holds hd hp
  have hap := hx.apart h.holds hfresh
  obtain ⟨hpde, hpte, hidx⟩ := window_words h.holds hd
  have hentry : (m.unshared K k (window d) new flags).ram m.cr3 d = mkEntry new 7#32 := unshared_pde h.holds hK hd hp hap
  obtain ⟨hwords, _, _, _⟩ := @unshared_words m _ L K k new (window d) flags hK hx hap rfl
  rw [hpde, hidx] at hwords
  refine ⟨h', hl.pays h h' unshared_tasks (unshared_kernelKept h.holds hK hx hap) (fun f => ?_) fun f hf =>
    fun _ => unshared_le fun he => hf (he ▸ hzero)⟩
  have hpages : pagesOf (m.unshared K k (window d) new flags).ram m.cr3 f = pagesOf m.ram m.cr3 f := by
    apply Finset.filter_congr
    intro n hn
    rw [walk_of_samePages (unsharedTable_pages h hK hd hp hlt hfresh) (pageNumber_user (Finset.mem_range.mp hn))]
  have htables := @tablesOf_change d f m.ram (m.unshared K k (window d) new flags).ram m.cr3 hd fun d' _ hne => by
    rw [hwords, Function.update_of_ne hne]
  have hcounts := @unshared_toNat m K k new (window d) f flags hzero
    (by rw [hpte]; exact hc.ne_zero h.holds (h.holds.reaches_table hd hp))
  rw [hentry, present_mkEntry, frameOf_mkEntry hlt (by decide), hp] at htables
  simp only [show present 7#32 = true from rfl, true_and, eq_comm (b := f)] at htables
  rw [hpte] at hcounts
  rw [held, held, hpages]
  show ((m.unshared K k (window d) new flags).bitmap f).toNat + _ = (m.bitmap f).toNat + _
  omega

theorem Opened.tasks {alloc : Kernel Nat} (ho : Opened alloc m L d flags m1 L1) : m1.tasks = m.tasks := by
  cases ho with
  | made t hp ht hlt hfresh => rfl
  | own hp hs => rfl
  | copied K k new m1 hp hs hK hk hnew hlt hzero hfresh => exact unshared_tasks

theorem Opened.le {alloc : Kernel Nat} (ho : Opened alloc m L d flags m1 L1) (h : Holds m L) (hA : Hands alloc m)
    (hf : m.bitmap f ≠ 0) : m1.bitmap f ≤ m.bitmap f := by
  cases ho with
  | made t hp ht hlt hfresh =>
    have hne : t ≠ m.cr3 := fun he => hfresh (he ▸ h.reaches_cr3)
    obtain ⟨_, hzero, _, _⟩ := hA.take ht
    rw [addTable_eq hne]
    show ((m.setFrame _ _).setCount t 1).bitmap f ≤ m.bitmap f
    have hft : f ≠ t := fun he => hf (he ▸ hzero)
    rw [setCount_of_ne _ _ _ hft]
    exact UInt8.le_refl _
  | own hp hs => exact UInt8.le_refl _
  | copied K k new m1 hp hs hK hk hnew hlt hzero hfresh => exact unshared_le fun he => hf (he ▸ hzero)

/-- A page that is mapped. -/
theorem Filled.pays (hF : Filled allocPageFrame m L a flags m' L') (hB : Booked m L) (ha : a < KERNEL_MEMORY)
    (hfl : Plain flags) (hno : ¬ HasPage m.ram m.cr3 (dirIndex a) (pageTableIndex a)) :
    Sound m' L' ∅ ∧ Pays (m, L) (m', L') := by
  obtain ⟨h, hc⟩ := hB
  have hA1 : ∀ f, Hands allocPageFrame (m.setCount f 1) := hc.hands_taken h.holds
  obtain ⟨h', hl⟩ := hF.sound h ha hfl hA1
  have hk := hF.kernelKept h ha
  have hb := hF.balanced h hc ha hfl hA1 hno
  obtain ⟨f, fl, m1, L1, _, _, hzero, hfresh, _, ho, rfl, rfl⟩ := hF
  obtain ⟨h1, _⟩ := h.taken hfresh
  refine ⟨h', hl.pays h h' ho.tasks hk hb fun g hg _ => ?_⟩
  have hsame : (m.setCount f 1).bitmap g = m.bitmap g := setCount_of_ne _ _ _ fun he => hg (he ▸ hzero)
  rw [← hsame] at hg ⊢
  exact ho.le h1.holds (hA1 f) hg

/-- A page table without pages that is freed. -/
theorem dropTable_pays (hB : Booked m L) (hd : d < 768) (hp : present (m.ram m.cr3 d) = true)
    (hnone : ∀ a, a < KERNEL_MEMORY → walk m.ram m.cr3 a = none) :
    Sound (m.dropTable d) L ∅ ∧ Local m L (m.dropTable d) L ∧ Pays (m, L) (m.dropTable d, L) ∧
      ∀ a, a < KERNEL_MEMORY → walk (m.dropTable d).ram m.cr3 a = none := by
  obtain ⟨h, hc⟩ := hB
  obtain ⟨hS, hgone⟩ := (Swept.refl h (h.slack (by simp)) hc).dropTable hd hp hnone
  have hr := h.holds.current_role
  refine ⟨hS.sound, hS.kept, hS.kept.pays h hS.sound (drop_tasks ..) ⟨fun i _ => ?_, fun K j hK _ _ => ?_⟩ hS.balanced
    fun f _ _ => drop_le _ _ _, hgone⟩
  · exact dropTable_of_ne (Or.inl (ne_of_role h.holds.low_role hr (by simp)))
  · exact dropTable_of_ne (Or.inl (ne_of_role (h.holds.ktab_role K hK) hr (by simp)))

/-- Changes of the contents of pages change no references. -/
theorem poke_heldBy (h : Sound m L ∅) (ha : a < KERNEL_MEMORY) (hw : walk m.ram m.cr3 a = some f) (i : Nat) (w : Word)
    (q : Nat) : heldBy (m.setWord f i w) q = heldBy m q := by
  obtain ⟨h1, _, _, _⟩ := h.poke ha hw i w
  have hn := h.holds.noTable_of_role (Or.inl (h.holds.user_page ha hw).1)
  cases ht : m.tasks q with
  | none => rw [heldBy_none ht, heldBy_none (m := m.setWord f i w) ht]
  | some t =>
    rw [heldBy_of h.holds ht, heldBy_of (m := m.setWord f i w) h1.holds ht]
    funext g
    apply held_congr
    intro d hd
    refine ⟨setWord_of_ne _ _ _ _ (Or.inl (hn.dir q t ht).symm), fun hp j _ => ?_⟩
    exact setWord_of_ne _ _ _ _ (Or.inl (hn.table q t ht d hd hp).symm)

theorem poke_pays (hB : Booked m L) (ha : a < KERNEL_MEMORY) (hw : walk m.ram m.cr3 a = some f) (i : Nat) (w : Word) :
    Sound (m.setWord f i w) L ∅ ∧ Pays (m, L) (m.setWord f i w, L) := by
  obtain ⟨h, hc⟩ := hB
  obtain ⟨h1, hs, _, _⟩ := h.poke ha hw i w
  have hn := h.holds.noTable_of_role (Or.inl (h.holds.user_page ha hw).1)
  have hcur : held (m.setWord f i w).ram m.cr3 = held m.ram m.cr3 :=
    (heldBy_current h1.holds).symm.trans ((poke_heldBy h ha hw i w m.current).trans (heldBy_current h.holds))
  refine ⟨h1, hs.kept, ⟨fun j _ => ?_, fun K j hK _ _ => ?_⟩, fun q _ => poke_heldBy h ha hw i w q, fun g => ?_,
    fun g _ h0 => (congrFun hcur g).trans h0, fun _ t' ht hs => ⟨t', ht, hs⟩⟩
  · exact setWord_of_ne _ _ _ _ (Or.inl hn.low.symm)
  · exact setWord_of_ne _ _ _ _ (Or.inl (hn.ktab K hK).symm)
  · show (m.bitmap g).toNat + held m.ram m.cr3 g = (m.bitmap g).toNat + held (m.setWord f i w).ram m.cr3 g
    rw [hcur]

/-- The references depend on the memory, and on where the directories are. -/
theorem SameTasks.heldBy (hs : SameTasks m m') (hram : m'.ram = m.ram) (q : Nat) : heldBy m' q = heldBy m q := by
  have hdir : directoryOf m' q = directoryOf m q := by
    rw [directoryOf, directoryOf, hram, hs.cr3]
    have hkey := hs.key q
    cases ht : m.tasks q with
    | none =>
      rw [ht, Option.map_none, Option.map_eq_none_iff] at hkey
      rw [hkey]
    | some t =>
      obtain ⟨t', ht', hk⟩ := hs.get ht
      simp only [TaskStruct.key, Prod.mk.injEq] at hk
      rw [ht', Option.bind_some, Option.bind_some, hk.2.2.1]
  funext f
  rw [Mm.heldBy, Mm.heldBy, hdir, hram]

/-- Fields of tasks change. -/
theorem retask_pays (hB : Booked m L) (hs : SameTasks m m') (hram : m'.ram = m.ram) (hbitmap : m'.bitmap = m.bitmap)
    (hstop : ∀ q t', m'.tasks q = some t' → t'.state = .stopped → ∃ t, m.tasks q = some t ∧ t.state = .stopped) :
    Sound m' L ∅ ∧ Pays (m, L) (m', L) := by
  obtain ⟨h, hc⟩ := hB
  obtain ⟨h', hl⟩ := h.retask hs hram
  refine ⟨h', hl.kept, ⟨fun _ _ => by rw [hram], fun _ _ _ _ _ => by rw [hram]⟩, fun q _ => hs.heldBy hram q, fun f => ?_,
    fun f _ h0 => by rw [hram]; exact h0, hstop⟩
  rw [hram, hbitmap]

/-- The first stage of a write fault. -/
theorem Split.pays (ho : Split allocPageFrame m L d m1 L1) (hB : Booked m L) (hd : d < 768)
    (hp : present (m.ram m.cr3 d) = true) : Sound m1 L1 ∅ ∧ Pays (m, L) (m1, L1) := by
  obtain ⟨h, hc⟩ := hB
  obtain ⟨h1, hl⟩ := ho.sound h hd hp
  have hk := ho.kernelKept h hd hp
  have hb := ho.balanced h hd hp (hc.ne_zero h.holds (h.holds.reaches_table hd hp))
  refine ⟨h1, ?_⟩
  cases ho with
  | own hcow => exact Std.Refl.refl _
  | copied K k new m2 hcow hK hk' hnew hlt hzero hfresh =>
    exact hl.pays h h1 unshared_tasks hk hb fun f hf _ => unshared_le fun he => hf (he ▸ hzero)

/-- The second stage of a write fault. -/
theorem pageCopy_pays (hB : Booked m L) (hK : L.ktab = some K) (hk : scan (m.ram K) 1024 = some k) (hv : v < KERNEL_MEMORY)
    (hpage : HasPage m.ram m.cr3 (dirIndex v) (pageTableIndex v)) (hs : shared (m.pde v) = false) (hlt : new < 2 ^ 20)
    (hzero : m.bitmap new = 0) (hfresh : ¬ Reaches m new) :
    Sound (m.unshared K k v new flags) (L.use new .data) ∅ ∧
      Pays (m, L) (m.unshared K k v new flags, L.use new .data) := by
  obtain ⟨h, hc⟩ := hB
  obtain ⟨h', hl⟩ := h.unsharedPage (e := flags) hK hk (user_lt hv) hpage hs hlt hfresh
  have hR := @replaced m L ∅ K k v new flags h hK hv hpage hs hfresh
  have hx := Spot.page h.holds (user_lt hv) hpage hs
  have hcount : m.bitmap (frameOf (m.pte v)) ≠ 0 := hc.ne_zero h.holds hx.reached.2
  refine ⟨h', hl.pays h h' unshared_tasks (unshared_kernelKept h.holds hK hx (hx.apart h.holds hfresh))
    (hR.balanced hv hpage hlt fun f => unshared_toNat hzero hcount) fun f hf _ => unshared_le fun he => hf (he ▸ hzero)⟩

/-! ## Page faults -/

/-- **A heap page that is not there yet.** -/
theorem pfNonPresent_pays (hB : Booked m L) (ha : addr < KERNEL_MEMORY) (hw : walk m.ram m.cr3 addr = none)
    (hr : Returns (pfNonPresent allocPageFrame addr) m u m') : ∃ L', Sound m' L' ∅ ∧ Pays (m, L) (m', L') := by
  obtain ⟨h, hc⟩ := hB
  obtain ⟨_, a, L', ha', _, hno, hF, _⟩ :=
    pfNonPresent_cases h (by simp) ha hw (hc.hands h.holds) (hc.hands_taken h.holds) hr
  exact ⟨L', hF.pays ⟨h, hc⟩ ha' plain_userRw hno⟩

/-- **A write to a present page**, of the user half or of the window. -/
theorem pfRoViolation_pays (hB : Booked m L) (hlt : addr < 2 ^ 32) (hp : present (m.pde addr) = true)
    (hq : present (m.pte addr) = true) (hr : Returns (pfRoViolation allocPageFrame addr) m u m') :
    ∃ L', Sound m' L' ∅ ∧ Pays (m, L) (m', L') := by
  obtain ⟨h, hc⟩ := hB
  by_cases ha : addr < KERNEL_MEMORY
  · have hpage : HasPage m.ram m.cr3 (dirIndex addr) (pageTableIndex addr) :=
      ⟨dirIndex_user ha, pageTableIndex_lt addr, hp, hq⟩
    have hsplit : ∀ m1 L1, Split allocPageFrame m L (dirIndex addr) m1 L1 → Hands allocPageFrame m1 := fun m1 L1 ho =>
      (ho.counted h hc hpage.1 hp).hands (ho.sound h hpage.1 hp).1.holds
    obtain ⟨_, _, m1, L1, K, k, new, m2, ho, hK, hk, _, hnlt, hzero, hfresh, rfl⟩ :=
      pfRoViolation_cases h (by simp) ha hpage (hc.hands h.holds) hsplit hr
    obtain ⟨h1, hp1⟩ := ho.pays ⟨h, hc⟩ hpage.1 hp
    obtain ⟨hpage1, hs1, _⟩ := ho.page h hpage
    rw [← hp1.kept.same.cr3] at hpage1 hs1
    obtain ⟨h2, hp2⟩ := pageCopy_pays (hp1.booked ⟨h, hc⟩ h1) hK hk ha hpage1 hs1 hnlt hzero hfresh
    exact ⟨_, h2, IsTrans.trans _ _ _ hp1 hp2⟩
  · obtain ⟨d, K, k, new, m1, _, hd, hpd, _, hK, hk, _, hnlt, hzero, hfresh, rfl⟩ :=
      pfRoViolation_window h (by simp) (not_lt.mp ha) hlt hp hq (hc.hands h.holds) hr
    exact ⟨_, tableCopy_pays ⟨h, hc⟩ hK hk hd hpd hnlt hzero hfresh⟩

/-- **Page faults**, when the heap of the task ends below the kernel. -/
theorem pageFault_pays (hB : Booked m L) (hlt : addr < 2 ^ 32) (hbrk : m.cur.brk ≤ KERNEL_MEMORY)
    (hr : Returns (pageFault allocPageFrame addr (walk m.ram m.cr3 addr).isSome) m u m') :
    ∃ L', Sound m' L' ∅ ∧ Pays (m, L) (m', L') := by
  cases hw : walk m.ram m.cr3 addr with
  | some f =>
    rw [hw, Option.isSome_some, pageFault, if_pos rfl] at hr
    obtain ⟨hp, hq, _⟩ := walk_eq_some.mp hw
    exact pfRoViolation_pays hB hlt hp hq hr
  | none =>
    rw [hw, Option.isSome_none, pageFault, if_neg Bool.false_ne_true] at hr
    exact pfNonPresent_pays hB (pfNonPresent_below hB.1 hbrk hw hr) hw hr

/-! ## Loading -/

/-- `alloc_pages` maps a page where none is. -/
theorem allocPageAt_cases {i : Nat} (hB : Booked m L) (hfl : Plain flags) (hi : i * PAGE_SIZE ≤ KERNEL_MEMORY)
    (hr : Returns (allocPageAt allocPageFrame flags i) m u m') :
    m' = m ∨ i * PAGE_SIZE < KERNEL_MEMORY ∧
      ¬ HasPage m.ram m.cr3 (dirIndex (i * PAGE_SIZE)) (pageTableIndex (i * PAGE_SIZE)) ∧
      ∃ L', Filled allocPageFrame m L (i * PAGE_SIZE) flags m' L' := by
  obtain ⟨h, hc⟩ := hB
  have hlt : i * PAGE_SIZE < 2 ^ 32 := by
    rw [KERNEL_MEMORY] at hi
    omega
  rw [allocPageAt, Returns.bind_iff ((pagePresent_ok h.holds.env hlt).mpr ⟨rfl, rfl⟩)] at hr
  by_cases hpe : (present (m.pde (i * PAGE_SIZE)) && present (m.pte (i * PAGE_SIZE))) = true
  · rw [if_pos hpe] at hr
    obtain ⟨_, rfl⟩ := pure_ok.mp hr
    exact Or.inl rfl
  · rw [if_neg hpe] at hr
    have ha : i * PAGE_SIZE < KERNEL_MEMORY := by
      refine lt_of_le_of_ne hi fun he => ?_
      have hw := h.holds.walk_first (f := 0) (by decide)
      rw [Nat.zero_mul, Nat.add_zero, ← he, walk_pte, if_neg hpe] at hw
      cases hw
    obtain ⟨f, m1, hf, hr⟩ := (bind_ok _ _ _).mp hr
    obtain ⟨v, m2, hr, hu⟩ := (bind_ok _ _ _).mp hr
    obtain ⟨_, rfl⟩ := pure_ok.mp hu
    obtain ⟨_, L', hF⟩ := take_mapPage h (by simp) ha hfl (hc.hands h.holds) (hc.hands_taken h.holds) hf hr
    exact Or.inr ⟨ha, fun hpage => hpe ((hasPage_iff ha).mp hpage), L', hF⟩

/-- Fields of the running task change, which goes on as before. -/
theorem setCur_pays {t : TaskStruct} (hB : Booked m L) (ht : t.key = m.cur.key ∧ t.state = m.cur.state) :
    Sound (m.setCur t) L ∅ ∧ Pays (m, L) (m.setCur t, L) := by
  refine retask_pays hB (sameTasks_setCur hB.1.holds.cur ht.1) rfl rfl fun q t' ht' hstop => ?_
  by_cases hq : q = m.current
  · subst hq
    have hself : (m.setCur t).tasks m.current = some t := Function.update_self ..
    obtain rfl : t = t' := Option.some.inj (hself.symm.trans ht')
    exact ⟨m.cur, hB.1.holds.curTask, ht.2 ▸ hstop⟩
  · exact ⟨t', (Function.update_of_ne hq ..).symm.trans ht', hstop⟩

/-- **The steps of loading** keep the books. -/
theorem loadSteps_pays : LoadSteps allocPageFrame Booked Pays where
  poke addr b ha m L u m' hB hr := by
    obtain ⟨f, hw, rfl⟩ := pokeByte_ok.mp hr
    obtain ⟨h', hp⟩ := poke_pays hB ha hw (wordIndex addr) (setByte (m.ram f (wordIndex addr)) (addr % 4) b)
    exact ⟨L, hp.booked hB h', hp⟩
  fault addr m L u m' ha hB hw hr := by
    obtain ⟨L', h', hp⟩ := pfNonPresent_pays hB ha hw hr
    exact ⟨L', hp.booked hB h', hp⟩
  page flags i hfl hi m L u m' hB hr := by
    rcases allocPageAt_cases hB hfl hi hr with rfl | ⟨ha, hno, L', hF⟩
    · exact ⟨L, hB, Std.Refl.refl _⟩
    · obtain ⟨h', hp⟩ := hF.pays hB ha hfl hno
      exact ⟨L', hp.booked hB h', hp⟩
  retask g hg m L u m' hB hr := by
    rw [(update_ok _ _).mp hr]
    obtain ⟨h', hp⟩ := setCur_pays hB (hg m)
    exact ⟨L, hp.booked hB h', hp⟩

/-! ## Teardown and exec -/

/-- **A page of the user half is freed.** -/
theorem freePage_pays (hB : Booked m L) (ha : addr < KERNEL_MEMORY) (hr : Returns (freePage allocPageFrame addr) m u m') :
    ∃ L', Sound m' L' ∅ ∧ Local m L m' L' ∧ Pays (m, L) (m', L') ∧ Unmapped m m' addr := by
  obtain ⟨h, hc⟩ := hB
  obtain ⟨L', hF⟩ := (freePage_frame h (h.slack (by simp)) ha (hc.gives h.holds ha).released).1 u m' hr
  obtain ⟨h', hp⟩ := hF.pays ⟨h, hc⟩ ha
  exact ⟨L', h', (hF.sound h ha).2, hp, hF.unmapped h ha⟩

/-- **Teardown**: the user half is empty afterwards. -/
theorem freeMemUsr_pays (hB : Booked m L) (hr : Returns (freeMemUsr allocPageFrame) m u m') :
    ∃ L', Sound m' L' ∅ ∧ Local m L m' L' ∧ Pays (m, L) (m', L') ∧
      ∀ d, d < 768 → present (m'.ram m'.cr3 d) = false := by
  obtain ⟨_, m1, h1, hr⟩ := (bind_ok _ _ _).mp hr
  -- after the first loop no page is left
  obtain ⟨L1, hB1, hl1, hp1, hgone⟩ := loop_ok (fun i t => ∃ L', Booked t L' ∧ Local m L t L' ∧ Pays (m, L) (t, L') ∧
      ∀ j, j < i → walk t.ram t.cr3 (j * PAGE_SIZE) = none) h1
    ⟨L, hB, Local.refl m L, Std.Refl.refl _, fun j hj => absurd hj (Nat.not_lt_zero j)⟩
    fun i t t' hi hI hround => by
      obtain ⟨L1, hB1, hl1, hp1, hgone⟩ := hI
      obtain ⟨L2, h2, hl2, hp2, hU⟩ := freePage_pays hB1 (pageNumber_user hi) hround
      refine ⟨L2, hp2.booked hB1 h2, hl1.trans hl2, IsTrans.trans _ _ _ hp1 hp2, fun j hj => ?_⟩
      have hcr3 : t'.cr3 = t.cr3 := hp2.kept.same.cr3
      rw [hcr3, hU.walk_eq (pageNumber_user (by omega))]
      by_cases hij : j = i
      · rw [hij, if_pos rfl]
      · rw [if_neg fun he => hij ?_]
        · exact hgone j (by omega)
        · rwa [Nat.mul_div_cancel _ (by decide), Nat.mul_div_cancel _ (by decide)] at he
  have hnone : ∀ a, a < KERNEL_MEMORY → walk m1.ram m1.cr3 a = none := fun a ha => by
    rw [← walk_base]
    refine hgone (a / PAGE_SIZE) ?_
    rw [KERNEL_MEMORY, PAGE_SIZE] at *
    omega
  have hsize : (getPageTable KERNEL_MEMORY - getPageTable 0) / PAGE_SIZE = 768 := by
    norm_num [getPageTable, KERNEL_MEMORY, PAGE_SIZE, dirIndex]
  rw [hsize] at hr
  -- and after the second no page table
  obtain ⟨L2, hB2, hl2, hp2, _, hempty⟩ := loop_ok (fun i t => ∃ L', Booked t L' ∧ Local m L t L' ∧ Pays (m, L) (t, L') ∧
      (∀ a, a < KERNEL_MEMORY → walk t.ram t.cr3 a = none) ∧ ∀ d, d < i → present (t.ram t.cr3 d) = false) hr
    ⟨L1, hB1, hl1, hp1, hnone, fun d hd => absurd hd (Nat.not_lt_zero d)⟩
    fun i t t' hi hI hround => by
      obtain ⟨L2, hB2, hl2, hp2, hnone, hempty⟩ := hI
      have haddr : getPageTable 0 + i * PAGE_SIZE = window i := by
        rw [getPageTable, window, PAGE_SIZE, dirIndex]
        omega
      rw [haddr, freePage] at hround
      have hword := (freeTable_ok hB2.1.holds hi).mp hround
      by_cases hpi : present (t.ram t.cr3 i) = true
      · rw [if_pos hpi] at hword
        obtain ⟨h3, hl3, hp3, hgone3⟩ := dropTable_pays hB2 hi hpi hnone
        rw [show t' = t.dropTable i from hword]
        have hcr3 : (t.dropTable i).cr3 = t.cr3 := hp3.kept.same.cr3
        refine ⟨L2, hp3.booked hB2 h3, hl2.trans hl3, IsTrans.trans _ _ _ hp2 hp3, hcr3 ▸ hgone3, fun d hd => ?_⟩
        rw [hcr3]
        by_cases hdi : d = i
        · rw [hdi, dropTable_self, present_absent]
        · rw [dropTable_of_ne (Or.inr hdi)]
          exact hempty d (by omega)
      · rw [if_neg hpi] at hword
        rw [hword]
        refine ⟨L2, hB2, hl2, hp2, hnone, fun d hd => ?_⟩
        by_cases hdi : d = i
        · exact hdi ▸ Bool.of_not_eq_true hpi
        · exact hempty d (by omega)
  exact ⟨L2, hB2.1, hl2, hp2, hempty⟩

theorem stackPage_user : KERNEL_MEMORY - PAGE_SIZE < KERNEL_MEMORY := by
  rw [KERNEL_MEMORY, PAGE_SIZE]
  omega

/-- The parts of `do_execve`: the teardown, the stack page, the file, and the fields of the task. -/
structure Exec (m : Machine) (L : Layout) (file : File) (m' m1 : Machine) (L1 : Layout) (m3 : Machine) (L3 : Layout)
    (m4 : Machine) (stack : Nat) : Prop where
  torn : Sound m1 L1 ∅ ∧ Local m L m1 L1 ∧ Pays (m, L) (m1, L1)
  empty : ∀ d, d < 768 → present (m1.ram m1.cr3 d) = false
  stackPage : Filled allocPageFrame m1 L1 (KERNEL_MEMORY - PAGE_SIZE) (PG_USER ||| PG_RW) m3 L3
  loaded : Returns (loadFile allocPageFrame file) m3 () m4
  eq : m' = m4.setCur (startTask stack m4.cur)

theorem doExecve_cases {file : File} {r : Int} (hB : Booked m L) (hr : Returns (doExecve allocPageFrame (some file)) m r m') :
    ∃ m1 L1 m3 L3 m4 stack, Exec m L file m' m1 L1 m3 L3 m4 stack := by
  obtain ⟨_, m1, h1, hr⟩ := (bind_ok _ _ _).mp hr
  obtain ⟨f, m2, h2, hr⟩ := (bind_ok _ _ _).mp hr
  obtain ⟨stack, m3, h3, hr⟩ := (bind_ok _ _ _).mp hr
  obtain ⟨_, m4, h4, hr⟩ := (bind_ok _ _ _).mp hr
  obtain ⟨_, m5, h5, hr⟩ := (bind_ok _ _ _).mp hr
  obtain ⟨_, rfl⟩ := pure_ok.mp hr
  obtain ⟨L1, hs1, hl1, hp1, hempty⟩ := freeMemUsr_pays hB h1
  have hB1 := hp1.booked hB hs1
  obtain ⟨_, L3, hF⟩ := take_mapPage hs1 (by simp) stackPage_user plain_userRw (hB1.2.hands hs1.holds)
    (hB1.2.hands_taken hs1.holds) h2 h3
  exact ⟨m1, L1, m3, L3, m4, stack, ⟨hs1, hl1, hp1⟩, hempty, hF, h4, (update_ok _ _).mp h5⟩

section Exec

variable {file : File} {m3 m4 : Machine} {L3 : Layout} {stack : Nat} (hE : Exec m L file m' m1 L1 m3 L3 m4 stack)

include hE

theorem Exec.booked (hB : Booked m L) : Booked m1 L1 := hE.torn.2.2.booked hB hE.torn.1

/-- No page is left when the stack page is mapped. -/
theorem Exec.no_page {d i : Nat} : ¬ HasPage m1.ram m1.cr3 d i := by
  rintro ⟨hd, _, hp, _⟩
  rw [hE.empty d hd] at hp
  cases hp

end Exec

/-- **`do_execve`** of an image below the kernel. -/
theorem doExecve_pays (hB : Booked m L) {file : Option File} (hb : ∀ f, file = some f → f.Below) {r : Int}
    (hr : Returns (doExecve allocPageFrame file) m r m') : ∃ L', Sound m' L' ∅ ∧ Pays (m, L) (m', L') := by
  cases file with
  | none =>
    obtain ⟨_, rfl⟩ := pure_ok.mp hr
    exact ⟨L, hB.1, Std.Refl.refl _⟩
  | some file =>
    obtain ⟨m1, L1, m3, L3, m4, stack, hE⟩ := doExecve_cases hB hr
    have hB1 := hE.booked hB
    obtain ⟨hs3, hp3⟩ := hE.stackPage.pays hB1 stackPage_user plain_userRw hE.no_page
    obtain ⟨L4, hB4, hp4⟩ := loadSteps_pays.loadFile (hb file rfl) m3 L3 _ m4 (hp3.booked hB1 hs3) hE.loaded
    obtain ⟨hs5, hp5⟩ := setCur_pays (t := startTask stack m4.cur) hB4 ⟨rfl, rfl⟩
    rw [hE.eq]
    exact ⟨L4, hs5, IsTrans.trans _ _ _ hE.torn.2.2 (IsTrans.trans _ _ _ hp3 (IsTrans.trans _ _ _ hp4 hp5))⟩

end Pays

end Raampjes.Mm
