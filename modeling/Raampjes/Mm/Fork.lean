import Raampjes.Mm.Loads

/-!
# Fork

- `allocPage_ok`, `NewPage.kernelPage`: a page of the kernel, with the kernel's page table when there is none yet;
- `incPhysRefs_ok`, `incUserRefs_ok`: one more reference for everything a directory names in the user half;
- `forkMem_ok`: the new directory is a copy of the running one, and both lose the right to write.
-/

namespace Raampjes.Mm

open Progs Sched

/-! ## A page of the kernel -/

/-- The layout with a page table for the kernel. -/
def Uses.withKtab (L : Layout) (K : Nat) : Layout := { L.use K .kernelTable with ktab := some K }

section KernelPage

variable {alloc : Kernel Nat} {m m' : Machine} {L : Layout} {T : Finset Nat} {K k f v : Nat} {w : Word}

/-- A slot that was absent may name any frame. -/
theorem Sound.fillSlot (h : Sound m L T) (hK : L.ktab = some K) (hk : k < 1024) (habs : present (m.ram K k) = false)
    (hw : shared w = false) : Sound (m.setWord K k w) L (insert k T) := by
  have hrole := h.holds.ktab_role K hK
  refine ⟨h.holds.setSlot hK hk w fun p t ht => h.holds.slot_free hK hk habs ht, ?_, ?_, ?_⟩
  · intro i hi
    rw [setWord_of_ne _ _ _ _ (Or.inl (ne_of_role h.holds.low_role hrole (by simp)))]
    exact h.tidy.low i hi
  · intro K' j hK' hj hp
    obtain rfl : K' = K := Option.some.inj (hK'.symm.trans hK)
    by_cases hjk : j = k
    · subst hjk
      rw [setWord_self]
      exact ⟨hw, Or.inl (Finset.mem_insert_self j T)⟩
    · rw [setWord_of_ne _ _ _ _ (Or.inr hjk)] at hp ⊢
      obtain ⟨h1, h2⟩ := h.tidy.slot K' j hK' hj hp
      exact ⟨h1, h2.imp (Finset.mem_insert_of_mem ·) id⟩
  · intro hnone
    rw [hK] at hnone
    cases hnone

/-- **The kernel's page table**, before the first fork. -/
theorem Sound.newKtab (h : Sound m L T) (hnone : L.ktab = none) (hlt : K < 2 ^ 20) (hK : ¬ Reaches m K) :
    Sound (m.addTable 769 K 3#32) (L.withKtab K) T := by
  have hne : K ≠ m.cr3 := fun he => hK (he ▸ h.holds.reaches_cr3)
  have hn := h.holds.noTable_of_unreached hK
  obtain ⟨hsingle, _⟩ := h.holds.single hnone
  have hcur : m.current = 0 := hsingle _ h.holds.cur
  have h1 : Holds ((m.setFrame K (filled 1024 (fun _ => 0#32) (m.ram K))).setCount K 1) (L.use K .kernelTable) :=
    ((h.holds.use (h.holds.spare_of_unreached hK) _).setFrame hn.use _).setCount K 1
  rw [addTable_eq hne]
  set m1 := (m.setFrame K (filled 1024 (fun _ => 0#32) (m.ram K))).setCount K 1 with hm1
  set w := mkEntry K (3#32 ||| 3#32) with hw
  have hwf : frameOf w = K := frameOf_mkEntry hlt (by decide)
  have hself : (m1.setWord m.cr3 769 w).ram m.cr3 769 = w := setWord_self ..
  have hdir : ∀ d, d ≠ 769 → (m1.setWord m.cr3 769 w).ram m.cr3 d = m1.ram m.cr3 d := fun d hd =>
    setWord_of_ne _ _ _ _ (Or.inr hd)
  have hfar : ∀ g, g ≠ m.cr3 → ∀ j, (m1.setWord m.cr3 769 w).ram g j = m1.ram g j := fun g hg j =>
    setWord_of_ne _ _ _ _ (Or.inl hg)
  have hcr3 : m.cr3 = L.dir 0 := by rw [h.holds.cr3, hcur]
  have hlow : L.pt1 ≠ m.cr3 := ne_of_role h.holds.low_role h.holds.current_role (by simp)
  have hsome : ∀ p t, m.tasks p = some t → p = 0 := fun p t ht => hsingle p (by rw [ht]; rfl)
  have hKram : ∀ j, j < 1024 → (m1.setWord m.cr3 769 w).ram K j = 0#32 := by
    intro j hj
    rw [hfar K hne j]
    show (m.setFrame K _).ram K j = _
    rw [setFrame_self, filled_lt hj]
  refine ⟨⟨?_, h1.low_role, ?_, ?_, h1.init, h1.cur, h1.cr3, ?_, ?_⟩, ?_, ?_, ?_⟩
  · intro i hi
    rw [show (L.withKtab K).pt1 = L.pt1 from rfl, hfar _ hlow]
    exact h1.low i hi
  · intro K' hK'
    obtain rfl : K = K' := Option.some.inj hK'
    exact use_role_self ..
  · intro p t ht
    obtain rfl := hsome p t ht
    have hp := h1.task 0 t ht
    have hD := hp.dirOk
    rw [show (L.use K .kernelTable).dir 0 = m.cr3 from hcr3.symm] at hD
    have hS := hp.spaceOk
    rw [show (L.use K .kernelTable).dir 0 = m.cr3 from hcr3.symm] at hS
    refine ⟨hp.pid, hp.lt, hp.role, ?_, ?_, hp.boot, fun h0 => absurd rfl h0, fun h0 => absurd rfl h0⟩
    · rw [show (L.withKtab K).dir 0 = m.cr3 from hcr3.symm]
      refine ⟨?_, ?_, ?_, ?_, ?_, ?_, ?_, fun hc => absurd hc (by simp [Uses.withKtab]), ?_, ?_⟩
      · rw [hdir 1023 (by decide)]; exact hD.self
      · rw [hdir 1023 (by decide)]; exact hD.self_frame
      · rw [hdir 1023 (by decide)]; exact hD.self_private
      · rw [hdir 768 (by decide)]; exact hD.low
      · rw [hdir 768 (by decide)]; exact hD.low_frame
      · rw [hdir 768 (by decide)]; exact hD.low_private
      · intro K' hK'
        obtain rfl : K = K' := Option.some.inj hK'
        rw [hself]
        exact ⟨by simp [hw], hwf, by rw [hw, shared_mkEntry]; rfl⟩
      · intro d hd hlt'
        rw [hdir d (by omega)]
        exact hD.rest d hd hlt'
      · intro d hd hlt' hpd
        by_cases h769 : d = 769
        · subst h769
          rw [hself, hw, cowDir_mkEntry]
          rfl
        · rw [hdir d h769] at hpd ⊢
          exact hD.uncow d hd hlt' hpd
    · rw [show (L.withKtab K).dir 0 = m.cr3 from hcr3.symm]
      have hsame : SameSpace m1.ram (m1.setWord m.cr3 769 w).ram m.cr3 := by
        intro d hd
        refine ⟨hdir d (by omega), fun hpd i _ => hfar _ ?_ i⟩
        exact ne_of_role (hS.table d hd hpd) h1.current_role (by simp)
      have hS' := hS.congr hsame
      exact ⟨hS'.table, hS'.page, hS'.inj, hS'.cow, hS'.protect, hS'.unlock⟩
  · intro p t q u d d' ht hu hpq hd hd' hp hp' heq
    obtain rfl := hsome p t ht
    obtain rfl := hsome q u hu
    rw [show (L.withKtab K).dir 0 = m.cr3 from hcr3.symm, hdir _ (by omega)] at hp hp' heq ⊢
    rw [hdir _ (by omega)] at heq
    exact h1.own_sharing (hpq.resolve_left (not_not.mpr rfl)) hd hd' hp hp' heq
  · intro hc
    exact absurd hc (by simp [Uses.withKtab])
  · intro i hi
    rw [show (L.withKtab K).pt1 = L.pt1 from rfl, hfar _ hlow]
    show shared ((m.setFrame K _).ram L.pt1 i) = false
    rw [setFrame_of_ne _ _ _ hn.low.symm]
    exact h.tidy.low i hi
  · intro K' j hK' hj hp
    obtain rfl : K = K' := Option.some.inj hK'
    rw [hKram j hj] at hp
    exact absurd hp (by decide)
  · intro hc
    exact absurd hc (by simp [Uses.withKtab])

/-- What is reached stays so when the entries on the way do. -/
theorem Holds.reaches_keep (h : Holds m L) (htasks : m'.tasks = m.tasks) (hcr3 : m'.cr3 = m.cr3)
    (hw : ∀ g j, Reaches m g → present (m.ram g j) = true → m'.ram g j = m.ram g j) (hf : Reaches m f) :
    Reaches m' f := by
  have hkeep : ∀ {p t addr g}, m.tasks p = some t → addr < 2 ^ 32 → walk m.ram (L.dir p) addr = some g →
      walk m'.ram (L.dir p) addr = some g := by
    intro p t addr g ht ha hwalk
    obtain ⟨h1, h2, h3⟩ := walk_eq_some.mp hwalk
    have hd := hw _ _ (h.reaches_dir ht) h1
    have hp := hw _ _ (h.reaches_window ht (dirIndex_lt ha) h1) h2
    rw [← hwalk]
    exact walk_congr hd hp
  obtain ⟨p, t, D, addr, ht, ha, hD, hwalk⟩ := hf
  have hTask := h.task p t ht
  obtain rfl : D = L.dir p := Option.some.inj (hD.symm.trans (hTask.walk_dir h h.curDir))
  refine ⟨p, t, L.dir p, addr, ?_, ha, ?_, hkeep ht ha hwalk⟩
  · rw [htasks]
    exact ht
  · have hlt : t.pageDirectory < 2 ^ 32 := by
      by_cases hp : p = 0
      · obtain ⟨haddr, hlt, _⟩ := hTask.boot hp
        rw [haddr, KERNEL_MEMORY, PAGE_SIZE]
        omega
      · obtain ⟨_, _, b, _, _, hb, _, _, _, _, haddr, _⟩ := hTask.slots hp
        rw [haddr]
        exact slot_lt hb
    rw [hcr3]
    rw [h.cr3] at hD ⊢
    exact hkeep h.curTask hlt hD

/-- The machine with the frame `f` in slot `k` of the kernel's page table. -/
def Machine.withPage (m : Machine) (K k f : Nat) : Machine := (m.setCount f 1).setWord K k (mkEntry f 3#32)

/-- The machine with the frame `f` in the first slot of a new page table of the kernel. -/
def Machine.withTable (m : Machine) (K f : Nat) : Machine :=
  ((m.setCount f 1).addTable 769 K 3#32).setWord K 0 (mkEntry f 3#32)

/-- A page of the kernel in the frame `f`, at slot `k` of the page table in the frame `K`. -/
inductive NewPage (alloc : Kernel Nat) (m : Machine) (L : Layout) : Machine → Nat → Nat → Nat → Prop
  | slot (K k f : Nat) (hK : L.ktab = some K) (hk : scan (m.ram K) 1024 = some k)
      (hf : Returns alloc m f (m.setCount f 1)) : NewPage alloc m L (m.withPage K k f) K k f
  | table (K f : Nat) (hK : L.ktab = none) (hf : Returns alloc m f (m.setCount f 1))
      (ht : Returns alloc (m.setCount f 1) K ((m.setCount f 1).setCount K 1)) : NewPage alloc m L (m.withTable K f) K 0 f

/-- **`alloc_page`** for the kernel. -/
theorem allocPage_ok (h : Sound m L T) (hT : T.card ≤ 8) (hA : Hands alloc m) (hA1 : ∀ f, Hands alloc (m.setCount f 1)) :
    Returns (allocPage alloc KERNEL_MEMORY (PG_KERN ||| PG_RW)) m v m' ↔
      ∃ K k f, v = slotAddr k ∧ NewPage alloc m L m' K k f := by
  have htake : Returns (allocPage alloc KERNEL_MEMORY (PG_KERN ||| PG_RW)) m v m' ↔
      ∃ f, Returns alloc m f (m.setCount f 1) ∧
        Returns (enterPage alloc f KERNEL_MEMORY (PG_KERN ||| PG_RW)) (m.setCount f 1) v m' := by
    rw [allocPage, bind_ok]
    constructor
    · rintro ⟨f, m1, hf, hr⟩
      obtain ⟨_, _, rfl, _⟩ := hA.take hf
      exact ⟨f, hf, hr⟩
    · rintro ⟨f, hf, hr⟩
      exact ⟨f, _, hf, hr⟩
  rw [htake]
  cases hK : L.ktab with
  | some K =>
    obtain ⟨k, hk⟩ := h.tidy.room h.holds hK hT
    have henter : ∀ f, Returns (enterPage alloc f KERNEL_MEMORY (PG_KERN ||| PG_RW)) (m.setCount f 1) v m' ↔
        v = slotAddr k ∧ m' = m.withPage K k f := fun f => enterPage_slot (h.holds.setCount f 1) hK hk
    constructor
    · rintro ⟨f, hf, hr⟩
      obtain ⟨hv, rfl⟩ := (henter f).mp hr
      exact ⟨K, k, f, hv, .slot K k f hK hk hf⟩
    · rintro ⟨K', k', f, rfl, hN⟩
      cases hN with
      | slot _ _ _ hK' hk' hf =>
        obtain rfl : K' = K := Option.some.inj (hK'.symm.trans hK)
        obtain rfl : k' = k := Option.some.inj (hk'.symm.trans hk)
        exact ⟨f, hf, (henter f).mpr ⟨rfl, rfl⟩⟩
      | table _ _ hK' => exact absurd (hK'.symm.trans hK) (by simp)
  | none =>
    have hd : dirIndex (slotAddr 0) = 769 := @dirIndex_slot 0 0 (by decide) (by decide)
    have hi : pageTableIndex (slotAddr 0) = 0 := @pageTableIndex_slot 0 0 (by decide) (by decide)
    have hslt : slotAddr 0 < 2 ^ 32 := slot_lt (by decide)
    have habs : ∀ f, present ((m.setCount f 1).pde (slotAddr 0)) = false := by
      intro f
      rw [Machine.pde, hd]
      exact h.holds.curDir.no_ktab hK
    have hnew : ∀ f t m3, Returns alloc (m.setCount f 1) t m3 →
        t < 2 ^ 20 ∧ t ≠ (m.setCount f 1).cr3 ∧ m3 = (m.setCount f 1).setCount t 1 := by
      intro f t m3 ht
      obtain ⟨h2, _, h3, h4⟩ := (hA1 f).take ht
      exact ⟨h2, fun he => h4 (he ▸ (h.holds.setCount f 1).reaches_cr3), h3⟩
    have htable : ∀ f pt m1, Returns (addPageTable alloc (slotAddr 0) 3#32) (m.setCount f 1) pt m1 ↔ _ := fun f pt m1 =>
      addPageTable_ok (h.holds.setCount f 1).env hslt (habs f) (by decide) (hnew f)
    have hmap : ∀ f K, Returns alloc (m.setCount f 1) K ((m.setCount f 1).setCount K 1) →
        (Returns (mapPage alloc f (slotAddr 0) (PG_KERN ||| PG_RW)) ((m.setCount f 1).addTable 769 K 3#32) v m' ↔
          v = slotAddr 0 ∧ m' = m.withTable K f) := by
      intro f K hKa
      obtain ⟨hKlt, _, _, hKfresh⟩ := (hA1 f).take hKa
      have hKc : K ≠ (m.setCount f 1).cr3 := fun he => hKfresh (he ▸ (h.holds.setCount f 1).reaches_cr3)
      have h2 := (h.setCount f 1).1.newKtab hK hKlt hKfresh
      have hpde : (Machine.addTable (m.setCount f 1) 769 K 3#32).pde (slotAddr 0) = mkEntry K (3#32 ||| 3#32) := by
        rw [Machine.pde, hd, addTable_eq hKc]
        exact setWord_self ..
      have hmap := @mapPage_ok alloc (copyPageTable alloc stackDepth) _ m' (slotAddr 0) f v (PG_KERN ||| PG_RW) h2.holds.env
        hslt (by rw [hpde]; simp) (by rw [hpde, shared_mkEntry]; decide)
      rw [hpde, hi, frameOf_mkEntry hKlt (by decide)] at hmap
      exact hmap
    constructor
    · rintro ⟨f, hf, hr⟩
      obtain ⟨v', m2, hv, hr⟩ := (bind_ok _ _ _).mp hr
      obtain ⟨rfl, pt, hpt⟩ := (getFreeAddress_new (h.holds.setCount f 1) hK).mp hv
      obtain ⟨K, hKa, _, rfl⟩ := (htable f pt m2).mp hpt
      rw [hd] at hr
      obtain ⟨hv, rfl⟩ := (hmap f K hKa).mp hr
      exact ⟨K, 0, f, hv, .table K f hK hf hKa⟩
    · rintro ⟨K, k, f, rfl, hN⟩
      cases hN with
      | slot _ _ _ hK' => exact absurd (hK'.symm.trans hK) (by simp)
      | table _ _ _ hf hKa =>
        refine ⟨f, hf, (bind_ok _ _ _).mpr ⟨slotAddr 0, _, (getFreeAddress_new (h.holds.setCount f 1) hK).mpr
          ⟨rfl, _, (htable f _ _).mpr ⟨K, hKa, rfl, rfl⟩⟩, ?_⟩⟩
        rw [hd]
        exact (hmap f K hKa).mpr ⟨rfl, rfl⟩

/-- What a new page of the kernel at slot `k` is. -/
structure KernelPage (m : Machine) (L : Layout) (m' : Machine) (L' : Layout) (K k f : Nat) : Prop where
  ktab : L'.ktab = some K
  lt : k < 1024
  free : ∀ p t, m.tasks p = some t → t.addr ≠ slotAddr k ∧ t.pageDirectory ≠ slotAddr k
  word : m'.ram K k = mkEntry f 3#32
  frame_lt : f < 2 ^ 20
  fresh : ¬ Reaches m f
  zero : m.bitmap f = 0
  count : m'.bitmap f = 1
  role : L'.role f = .unused
  untouched : Untouched m m'
  pt1 : L'.pt1 = L.pt1
  dir : L'.dir = L.dir
  own : L'.own = L.own
  old : ∀ K', L.ktab = some K' → K' = K ∧ present (m.ram K k) = false ∧ ∀ j, j ≠ k → m'.ram K j = m.ram K j
  rest : ∀ g j, Reaches m g → L.role g ≠ .kernelTable → (g ≠ m.cr3 ∨ j ≠ 769) → m'.ram g j = m.ram g j
  roles : ∀ g, Reaches m g → L'.role g = L.role g
  top : m'.ram m.cr3 769 = m.ram m.cr3 769 ∨ m'.ram m.cr3 769 = mkEntry K 3#32
  reaches : ∀ g, Reaches m g → Reaches m' g

/-- **A page of the kernel.** -/
theorem NewPage.kernelPage (hN : NewPage alloc m L m' K k f) (h : Sound m L T) (hA : Hands alloc m)
    (hA1 : Hands alloc (m.setCount f 1)) : ∃ L', KernelPage m L m' L' K k f ∧ Sound m' L' (insert k T) := by
  cases hN with
  | slot _ _ _ hK hk hf =>
    obtain ⟨hlt, hzero, _, hfresh⟩ := hA.take hf
    obtain ⟨h1, l1⟩ := h.taken hfresh
    obtain ⟨_, hklt, habs⟩ := scan_some (le_refl _) hk
    refine ⟨L.use f .unused, ⟨hK, hklt, ?_, setWord_self .., hlt, hfresh, hzero, ?_, use_role_self ..,
      ⟨rfl, rfl, rfl⟩, rfl, rfl, rfl, ?_, ?_, ?_, Or.inl ?_, ?_⟩, h1.fillSlot hK hklt habs (by rw [shared_mkEntry]; decide)⟩
    · exact fun p t ht => h.holds.slot_free hK hklt habs ht
    · rw [Machine.withPage, setWord_bitmap, setCount_self]
    · intro K' hK'
      obtain rfl : K = K' := Option.some.inj (hK.symm.trans hK')
      exact ⟨rfl, habs, fun j hj => setWord_of_ne _ _ _ _ (Or.inr hj)⟩
    · intro g j _ hg _
      exact setWord_of_ne _ _ _ _ (Or.inl fun he => hg (he ▸ h.holds.ktab_role K hK))
    · exact fun g hg => use_role_of_ne L _ fun he => hfresh (he ▸ hg)
    · exact setWord_of_ne _ _ _ _ (Or.inl (ne_of_role h.holds.current_role (h.holds.ktab_role K hK) (by simp)))
    · have hgrown : Grown m (m.withPage K k f) := @grown_setWord (m.setCount f 1) K k habs _
      exact fun g hg => hg.grow hgrown rfl rfl
  | table _ _ hK hf hKa =>
    obtain ⟨hlt, hzero, _, hfresh⟩ := hA.take hf
    obtain ⟨h1, l1⟩ := h.taken hfresh
    obtain ⟨hKlt, hKzero, _, hKfresh⟩ := hA1.take hKa
    have hKf : K ≠ f := by
      rintro rfl
      rw [setCount_self] at hKzero
      cases hKzero
    have hKc : K ≠ (m.setCount f 1).cr3 := fun he => hKfresh (he ▸ h1.holds.reaches_cr3)
    have h2 := h1.newKtab hK hKlt hKfresh
    have hKram : ∀ j, j < 1024 → (Machine.addTable (m.setCount f 1) 769 K 3#32).ram K j = 0#32 := by
      intro j hj
      rw [addTable_eq hKc, setWord_of_ne _ _ _ _ (Or.inl hKc), setCount_ram, setFrame_self, filled_lt hj]
    have hfar : ∀ g j, g ≠ K → (g ≠ (m.setCount f 1).cr3 ∨ j ≠ 769) →
        (Machine.addTable (m.setCount f 1) 769 K 3#32).ram g j = m.ram g j := by
      intro g j hg hj
      rw [addTable_eq hKc, setWord_of_ne _ _ _ _ hj, setCount_ram, setFrame_of_ne _ _ _ hg, setCount_ram]
    refine ⟨(L.use f .unused).withKtab K, ⟨rfl, by decide, ?_, setWord_self .., hlt, hfresh, hzero, ?_, ?_,
      ⟨rfl, rfl, rfl⟩, rfl, rfl, rfl, ?_, ?_, ?_, Or.inr ?_, ?_⟩,
      h2.fillSlot rfl (by decide) (by rw [hKram 0 (by decide)]; rfl) (by rw [shared_mkEntry]; decide)⟩
    · intro p t ht
      have hslot := h2.holds.slot_free rfl (k := 0) (by decide) (by rw [hKram 0 (by decide)]; rfl) (p := p) (t := t) ht
      exact hslot
    · show Function.update (Function.update m.bitmap f 1) K 1 f = 1
      rw [Function.update_of_ne hKf.symm, Function.update_self]
    · exact (use_role_of_ne _ _ hKf.symm).trans (use_role_self ..)
    · intro K' hK'
      rw [hK] at hK'
      cases hK'
    · intro g j hg _ hj
      have hgK : g ≠ K := fun he => hKfresh (he ▸ hg.grow (fun _ _ _ => rfl) rfl rfl)
      rw [Machine.withTable, setWord_of_ne _ _ _ _ (Or.inl hgK), hfar g j hgK hj]
    · intro g hg
      have hgK : g ≠ K := fun he => hKfresh (he ▸ hg.grow (fun _ _ _ => rfl) rfl rfl)
      have hgf : g ≠ f := fun he => hfresh (he ▸ hg)
      exact (use_role_of_ne _ _ hgK).trans (use_role_of_ne _ _ hgf)
    · show (Machine.setWord _ K 0 _).ram (m.setCount f 1).cr3 769 = _
      rw [setWord_of_ne _ _ _ _ (Or.inl (Ne.symm hKc)), addTable_eq hKc, setWord_self]
      rfl
    · intro g hg
      refine h.holds.reaches_keep rfl rfl (fun g' j hg' hpj => ?_) hg
      have hgK : g' ≠ K := fun he => hKfresh (he ▸ hg'.grow (fun _ _ _ => rfl) rfl rfl)
      rw [Machine.withTable, setWord_of_ne _ _ _ _ (Or.inl hgK)]
      refine hfar g' j hgK ?_
      by_contra hc
      rw [not_or, not_not, not_not] at hc
      rw [hc.1, hc.2, setCount_cr3, h.holds.curDir.no_ktab hK] at hpj
      cases hpj

end KernelPage

/-! ## The two directories -/

section Directories

variable {alloc : Kernel Nat} {m m' : Machine} {L : Layout} {T : Finset Nat} {K k D : Nat} {u : Unit}

theorem protectEntry_ok {a : Nat} :
    Returns (protectEntry a) m u m' ↔
      ∃ f, walk m.ram m.cr3 a = some f ∧ m' = m.setWord f (wordIndex a) (cowEntry (m.ram f (wordIndex a))) := by
  simp only [protectEntry, bind_ok, loadWord_ok, storeWord_ok]
  constructor
  · rintro ⟨w, t, ⟨f, hf, rfl, rfl⟩, g, hg, rfl⟩
    obtain rfl : f = g := Option.some.inj (hf.symm.trans hg)
    exact ⟨f, hf, rfl⟩
  · rintro ⟨f, hf, rfl⟩
    exact ⟨_, m, ⟨f, hf, rfl, rfl⟩, f, hf, rfl⟩

/-- A directory with the first `n` entries protected. -/
def flagged (n : Nat) (g : Nat → Word) : Nat → Word := filled n (fun i => cowEntry (g i)) g

theorem flagged_succ (n : Nat) (g : Nat → Word) :
    flagged (n + 1) g = Function.update (flagged n g) n (cowEntry (g n)) := filled_succ ..

theorem flagged_self (n : Nat) (g : Nat → Word) : flagged n g n = g n := if_neg (lt_irrefl n)

theorem flagged_ge {n i : Nat} (g : Nat → Word) (h : n ≤ i) : flagged n g i = g i := if_neg (not_lt.mpr h)

theorem flagged_lt {n i : Nat} (g : Nat → Word) (h : i < n) : flagged n g i = cowEntry (g i) := if_pos h

/-- The two directories while `fork_mem` protects their entries. -/
def Machine.forking (m : Machine) (D : Nat) (g c : Nat → Word) : Machine := (m.setFrame D g).setFrame m.cr3 c

theorem forking_step (hne : D ≠ m.cr3) (g c : Nat → Word) (n : Nat) (v w : Word) :
    ((m.forking D g c).setWord D n v).setWord m.cr3 n w =
      m.forking D (Function.update g n v) (Function.update c n w) := by
  simp only [Machine.forking, Machine.setFrame, Machine.setWord]
  congr 1
  funext f
  by_cases hD : f = D
  · subst hD
    simp [hne]
  · by_cases hc : f = m.cr3
    · subst hc
      simp [hD]
    · simp [hD, hc]

/-- Both directories are reached in between. -/
theorem forking_walks (h : Holds m L) (hK : L.ktab = some K) (hk : k < 1024) (hslot : present (m.ram K k) = true)
    (hD : frameOf (m.ram K k) = D) (hspare : Spare m L D) {g c : Nat → Word}
    (hc : ∀ j, 768 ≤ j → c j = m.ram m.cr3 j) :
    walk (m.forking D g c).ram m.cr3 (slotAddr k) = some D ∧
      walk (m.forking D g c).ram m.cr3 m.cur.pageDirectory = some m.cr3 := by
  have hcr3 : (m.forking D g c).ram m.cr3 = c := setFrame_self ..
  have hfar : ∀ f, f ≠ m.cr3 → f ≠ D → (m.forking D g c).ram f = m.ram f := by
    intro f h1 h2
    rw [Machine.forking, setFrame_of_ne _ _ _ h1, setFrame_of_ne _ _ _ h2]
  have hd : dirIndex (slotAddr k) = 769 := @dirIndex_slot k 0 hk (by decide)
  have hKr := h.ktab_role K hK
  constructor
  · have hwalk := h.curDir.walk_slot hK hk hslot
    rw [hD] at hwalk
    rw [← hwalk]
    refine walk_congr ?_ ?_
    · rw [hd, hcr3, hc 769 (by decide)]
    · rw [hd, (h.curDir.ktab K hK).2.1]
      exact congrFun (hfar K (ne_of_role hKr h.current_role (by simp)) (hspare.noTable.ktab K hK).symm) _
  · rw [← h.env.dir]
    rcases h.dir_path with ⟨h768, hf⟩ | ⟨h769, hf⟩
    · refine walk_congr ?_ ?_
      · rw [h768, hcr3, hc 768 (le_refl _)]
      · rw [Machine.pde] at hf
        rw [hf]
        exact congrFun (hfar _ (ne_of_role h.low_role h.current_role (by simp)) hspare.noTable.low.symm) _
    · refine walk_congr ?_ ?_
      · rw [h769, hcr3, hc 769 (by decide)]
      · rw [Machine.pde, hK, Option.some.injEq] at hf
        rw [← hf]
        exact congrFun (hfar _ (ne_of_role hKr h.current_role (by simp)) (hspare.noTable.ktab K hK).symm) _

/-- **The loop of `fork_mem`.** -/
theorem protect_loop (h : Holds m L) (hK : L.ktab = some K) (hk : k < 1024) (hslot : present (m.ram K k) = true)
    (hD : frameOf (m.ram K k) = D) (hspare : Spare m L D) (g : Nat → Word) :
    Returns (loop (fun i => do
      protectEntry (slotAddr k + 4 * i)
      protectEntry (m.cur.pageDirectory + 4 * i)) 768) (m.setFrame D g) ()
      (m.forking D (flagged 768 g) (flagged 768 (m.ram m.cr3))) := by
  have hne : D ≠ m.cr3 := by
    rw [h.cr3]
    exact hspare.noTable.dir _ _ h.curTask
  have h0 : m.setFrame D g = m.forking D (flagged 0 g) (flagged 0 (m.ram m.cr3)) := by
    rw [flagged, flagged, filled_zero, filled_zero, Machine.forking]
    have hself : m.ram m.cr3 = (m.setFrame D g).ram (m.setFrame D g).cr3 := (setFrame_of_ne _ _ _ hne.symm).symm
    rw [hself]
    exact (setFrame_self_eq _ _).symm
  rw [h0]
  refine loop_eq (fun i => m.forking D (flagged i g) (flagged i (m.ram m.cr3))) fun i hi => ?_
  have hi' : i < 1024 := by omega
  have halign := h.env.aligned
  -- the entry of the new directory
  have hwalk := forking_walks h hK hk hslot hD hspare (g := flagged i g) (c := flagged i (m.ram m.cr3))
    fun j hj => flagged_ge _ (by omega)
  have hword : (m.forking D (flagged i g) (flagged i (m.ram m.cr3))).ram D i = g i := by
    rw [Machine.forking, setFrame_of_ne _ _ _ hne, setFrame_self, flagged_self]
  refine (bind_ok _ _ _).mpr ⟨(), _, protectEntry_ok.mpr ⟨D, ?_, rfl⟩, protectEntry_ok.mpr ⟨m.cr3, ?_, ?_⟩⟩
  · show walk _ m.cr3 _ = _
    rw [walk_add _ _ (slot_aligned k) (entry_offset hi'), hwalk.1]
  · -- the entry of the old one, in the state with the new one protected
    rw [wordIndex_add (slot_aligned k) hi', hword]
    have hstep : (m.forking D (flagged i g) (flagged i (m.ram m.cr3))).setWord D i (cowEntry (g i)) =
        m.forking D (flagged (i + 1) g) (flagged i (m.ram m.cr3)) := by
      have hsame := forking_step hne (flagged i g) (flagged i (m.ram m.cr3)) i (cowEntry (g i)) (m.ram m.cr3 i)
      rw [setWord_same, ← flagged_succ] at hsame
      · rw [hsame]
        congr 1
        exact Function.update_eq_self_iff.mpr (flagged_self i _).symm
      · rw [setWord_of_ne _ _ _ _ (Or.inl hne.symm), Machine.forking, setFrame_self, flagged_self]
    rw [hstep]
    have hwalk2 := forking_walks h hK hk hslot hD hspare (g := flagged (i + 1) g) (c := flagged i (m.ram m.cr3))
      fun j hj => flagged_ge _ (by omega)
    show walk _ m.cr3 _ = _
    rw [walk_add _ _ halign (entry_offset hi'), hwalk2.2]
  · rw [wordIndex_add (slot_aligned k) hi', wordIndex_add halign hi', hword,
      setWord_of_ne _ _ _ _ (Or.inl hne.symm)]
    have hold : (m.forking D (flagged i g) (flagged i (m.ram m.cr3))).ram m.cr3 i = m.ram m.cr3 i := by
      rw [Machine.forking, setFrame_self, flagged_self]
    rw [hold, forking_step hne, flagged_succ, flagged_succ]

end Directories

/-! ## The counters -/

/-- What `page_frame` answers. -/
def Machine.named (m : Machine) (a : Nat) : Nat := if present (m.pde a) then frameOf (m.pte a) else 0

/-- The machine after each counter went up, modulo 256. -/
def Machine.counting (m : Machine) (n : Nat → Nat) : Machine :=
  { m with bitmap := fun f => m.bitmap f + UInt8.ofNat (n f) }

/-- How many of `n` pages, from the page number `s` on, have the frame `f` in their entries. Frame 0 is not counted. -/
def namings (m : Machine) (s n f : Nat) : Nat :=
  if f = 0 then 0 else ((Finset.range n).filter fun i => m.named ((s + i) * PAGE_SIZE) = f).card

section Counting

variable {m m' : Machine} {s n f start stop : Nat} {u : Unit}

theorem namings_zero : namings m s 0 f = 0 := by
  rw [namings, Finset.range_zero, Finset.filter_empty, Finset.card_empty, ite_self]

theorem namings_succ (hf : f ≠ 0) :
    namings m s (n + 1) f = namings m s n f + if m.named ((s + n) * PAGE_SIZE) = f then 1 else 0 := by
  rw [namings, namings, if_neg hf, if_neg hf, Finset.range_add_one, Finset.filter_insert]
  by_cases hn : m.named ((s + n) * PAGE_SIZE) = f
  · rw [if_pos hn, if_pos hn, Finset.card_insert_of_notMem (by simp)]
  · rw [if_neg hn, if_neg hn, Nat.add_zero]

theorem counting_none {n : Nat → Nat} (h : ∀ f, n f = 0) : m.counting n = m := by
  simp only [Machine.counting, h]
  cases m
  simp

theorem frameOf_le (w : Word) : frameOf w ≤ frames := by
  rw [frames_eq]
  exact (frameOf_lt w).le

/-- **`inc_phys_refs`.** -/
theorem incPhysRefs_ok (h : Env m) (hstop : stop ≤ 2 ^ 32) :
    Returns (incPhysRefs start stop) m u m' ↔
      m' = m.counting (namings m (start / PAGE_SIZE) (stop / PAGE_SIZE - start / PAGE_SIZE)) := by
  set s := start / PAGE_SIZE with hs
  have hloop : Returns (incPhysRefs start stop) (m.counting (namings m s 0)) ()
      (m.counting (namings m s (stop / PAGE_SIZE - s))) := by
    refine loop_eq (fun i => m.counting (namings m s i)) fun i hi => ?_
    have hE : Env (m.counting (namings m s i)) := h.grow (fun _ _ _ => rfl) rfl rfl
    have ha : (s + i) * PAGE_SIZE < 2 ^ 32 := by
      rw [PAGE_SIZE] at *
      omega
    have hname : Returns (pageFrame ((s + i) * PAGE_SIZE)) (m.counting (namings m s i)) (m.named ((s + i) * PAGE_SIZE))
        (m.counting (namings m s i)) := (pageFrame_ok hE ha).mpr ⟨rfl, rfl⟩
    refine (bind_ok _ _ _).mpr ⟨_, _, hname, ?_⟩
    by_cases h0 : m.named ((s + i) * PAGE_SIZE) = 0
    · rw [onlyIf_neg (by simpa using h0)]
      refine pure_ok.mpr ⟨rfl, ?_⟩
      congr 1
      funext f
      by_cases hf : f = 0
      · rw [namings, namings, if_pos hf, if_pos hf]
      · rw [namings_succ hf, if_neg (by rw [h0]; exact Ne.symm hf), Nat.add_zero]
    · have hle : ¬ m.named ((s + i) * PAGE_SIZE) > frames := by
        rw [Machine.named]
        split
        · exact not_lt.mpr (frameOf_le _)
        · exact Nat.not_lt_zero _
      rw [onlyIf_pos (by simpa using h0), Returns, increaseBitmap, if_neg hle]
      congr 2
      simp only [Machine.counting, Machine.setCount, Machine.mk.injEq, true_and, and_true]
      funext f
      by_cases hf : f = m.named ((s + i) * PAGE_SIZE)
      · rw [← hf] at h0 ⊢
        rw [Function.update_self, namings_succ h0, if_pos hf.symm, UInt8.ofNat_add, ← UInt8.add_assoc]
        rfl
      · rw [Function.update_of_ne hf]
        by_cases hf0 : f = 0
        · rw [namings, namings, if_pos hf0, if_pos hf0]
        · rw [namings_succ hf0, if_neg (Ne.symm hf), Nat.add_zero]
  rw [counting_none fun f => namings_zero] at hloop
  constructor
  · intro hr
    exact (hloop.unique hr).2.symm
  · rintro rfl
    exact hloop

/-- The machine after the counters of all frames that the user half names went up. -/
def Machine.referred (m : Machine) : Machine :=
  m.counting fun f => namings m 0 (KERNEL_MEMORY / PAGE_SIZE) f + namings m (window 0 / PAGE_SIZE) 768 f

/-- The two calls of `inc_phys_refs` in `fork_mem`: the pages, and the page tables. -/
theorem incUserRefs_ok (h : Env m) {x : Kernel Nat} {v : Nat} :
    Returns (do
      incPhysRefs 0 KERNEL_MEMORY
      incPhysRefs (getPageTable 0) (getPageTable KERNEL_MEMORY)
      x) m v m' ↔ Returns x m.referred v m' := by
  have hE : Env (m.counting (namings m 0 (KERNEL_MEMORY / PAGE_SIZE))) := h.grow (fun _ _ _ => rfl) rfl rfl
  have hstart : getPageTable 0 = window 0 := getPageTable_eq (by decide)
  have hstop : getPageTable KERNEL_MEMORY = window 768 := getPageTable_eq (by decide)
  have hsize : window 768 / PAGE_SIZE - window 0 / PAGE_SIZE = 768 := by decide
  have hboth : (m.counting (namings m 0 (KERNEL_MEMORY / PAGE_SIZE))).counting (namings m (window 0 / PAGE_SIZE) 768) =
      m.referred := by
    simp only [Machine.referred, Machine.counting, UInt8.ofNat_add, UInt8.add_assoc]
  have h1 := (@incPhysRefs_ok m _ 0 KERNEL_MEMORY () h (by decide)).mpr rfl
  have h2 := (@incPhysRefs_ok _ _ (window 0) (window 768) () hE (by decide)).mpr rfl
  rw [Nat.zero_div, Nat.sub_zero] at h1
  rw [hsize] at h2
  rw [hstart, hstop, Returns.bind_iff h1, Returns.bind_iff h2, ← hboth]
  exact Iff.rfl

end Counting

/-! ## The new directory -/

/-- The directory of the child: the one of the parent, protected, but for the entry that names itself. -/
def childDir (D : Nat) (c : Nat → Word) (i : Nat) : Word := if i = 1023 then mkEntry D 7#32 else flagged 768 c i

theorem childDir_eq (D : Nat) (c old : Nat → Word) :
    Function.update (flagged 768 (filled 1024 c old)) 1023 (mkEntry D 7#32) = filled 1024 (childDir D c) old := by
  funext i
  by_cases h1023 : i = 1023
  · subst h1023
    rw [Function.update_self, filled_lt (by decide), childDir, if_pos rfl]
  · rw [Function.update_of_ne h1023]
    by_cases hlt : i < 1024
    · rw [filled_lt hlt, childDir, if_neg h1023]
      by_cases h768 : i < 768
      · rw [flagged_lt _ h768, flagged_lt _ h768, filled_lt hlt]
      · rw [flagged_ge _ (by omega), flagged_ge _ (by omega), filled_lt hlt]
    · rw [flagged_ge _ (by omega), filled, filled, if_neg hlt, if_neg hlt]

section ForkMem

variable {alloc : Kernel Nat} {m m' : Machine} {L : Layout} {T : Finset Nat} {K k D v : Nat} {u : Unit}

/-- The kernel reaches its tables while it forks. -/
theorem forking_env (h : Holds m L) (hK : L.ktab = some K) (hk : k < 1024) (hslot : present (m.ram K k) = true)
    (hD : frameOf (m.ram K k) = D) (hspare : Spare m L D) {g c : Nat → Word}
    (hc : ∀ j, 768 ≤ j → c j = m.ram m.cr3 j) : Env (m.forking D g c) := by
  have hself : (m.forking D g c).ram m.cr3 1023 = m.ram m.cr3 1023 := by
    rw [Machine.forking, setFrame_self, hc 1023 (by decide)]
  refine ⟨?_, ?_, h.env.aligned, (forking_walks h hK hk hslot hD hspare hc).2⟩
  · show present ((m.forking D g c).ram m.cr3 1023) = true
    rw [hself]
    exact h.env.self
  · show frameOf ((m.forking D g c).ram m.cr3 1023) = m.cr3
    rw [hself]
    exact h.env.self_frame

/-- The machine with a copy of its page directory in the frame `D`, and both protected. -/
def Machine.copied (m : Machine) (D : Nat) : Machine :=
  m.forking D (filled 1024 (childDir D (m.ram m.cr3)) (m.ram D)) (flagged 768 (m.ram m.cr3))

/-- What `fork_mem` does between its page for the directory and the counters. -/
theorem forkMem_copied {x : Kernel Nat} (h : Holds m L) (hK : L.ktab = some K) (hk : k < 1024)
    (hw : m.ram K k = mkEntry D 3#32) (hlt : D < 2 ^ 20) (hrole : L.role D = .unused) :
    (Returns (do
      copyPage (slotAddr k) m.cur.pageDirectory
      loop (fun i => do
        protectEntry (slotAddr k + 4 * i)
        protectEntry (m.cur.pageDirectory + 4 * i)) (dirIndex KERNEL_MEMORY)
      let own ← pageFrame (slotAddr k)
      storeWord (slotAddr k + 4 * 1023) (mkEntry own (PG_USER ||| PG_RW ||| 1#32))
      x) m v m' ↔ Returns x (m.copied D) v m') ∧ Env (m.copied D) := by
  have hspare : Spare m L D := h.spare_of_unused hrole
  have hpres : present (m.ram K k) = true := by
    rw [hw]
    simp
  have hframe : frameOf (m.ram K k) = D := by rw [hw, frameOf_mkEntry hlt (by decide)]
  have hne : m.cr3 ≠ D := by
    rw [h.cr3]
    exact (hspare.noTable.dir _ _ h.curTask).symm
  have hwalk : walk m.ram m.cr3 (slotAddr k) = some D := by rw [h.curDir.walk_slot hK hk hpres, hframe]
  have hd : dirIndex (slotAddr k) = 769 := @dirIndex_slot k 0 hk (by decide)
  -- the copy
  have hpath : ¬ OnPath m (slotAddr k) D := by
    rintro (he | he)
    · exact hne he.symm
    · rw [Machine.pde, hd, (h.curDir.ktab K hK).2.1] at he
      exact hspare.noTable.ktab K hK he
  have hpath' : ¬ OnPath m m.cur.pageDirectory D := by
    rintro (he | he)
    · exact hne he.symm
    · rcases h.dir_path with ⟨_, hf⟩ | ⟨_, hf⟩
      · exact hspare.noTable.low (he.trans hf)
      · rw [hK, Option.some.injEq] at hf
        exact hspare.noTable.ktab K hK (he.trans hf.symm)
  rw [Returns.bind_iff ((copyPage_ok (u := ()) (slot_aligned k) h.env.aligned hwalk h.env.dir hne hpath hpath').mpr rfl),
    show dirIndex KERNEL_MEMORY = 768 from rfl,
    Returns.bind_iff (protect_loop h hK hk hpres hframe hspare _)]
  set g := flagged 768 (filled 1024 (m.ram m.cr3) (m.ram D)) with hg
  set c := flagged 768 (m.ram m.cr3) with hc
  have hhigh : ∀ j, 768 ≤ j → c j = m.ram m.cr3 j := fun j hj => flagged_ge _ hj
  have hE : Env (m.forking D g c) := forking_env h hK hk hpres hframe hspare hhigh
  -- the entry of the directory itself
  have hslt : slotAddr k < 2 ^ 32 := slot_lt hk
  have hpde : (m.forking D g c).pde (slotAddr k) = m.ram m.cr3 769 := by
    show (m.forking D g c).ram m.cr3 _ = _
    rw [hd, Machine.forking, setFrame_self, hhigh 769 (by decide)]
  have hpte : (m.forking D g c).pte (slotAddr k) = m.ram K k := by
    have hKc : K ≠ m.cr3 := ne_of_role (h.ktab_role K hK) h.current_role (by simp)
    rw [Machine.pte, hpde, (h.curDir.ktab K hK).2.1, show pageTableIndex (slotAddr k) = k from
      @pageTableIndex_slot k 0 hk (by decide), Machine.forking, setFrame_of_ne _ _ _ hKc,
      setFrame_of_ne _ _ _ (hspare.noTable.ktab K hK).symm]
  have hown : Returns (pageFrame (slotAddr k)) (m.forking D g c) D (m.forking D g c) := by
    refine (pageFrame_ok hE hslt).mpr ⟨?_, rfl⟩
    rw [hpde, hpte, (h.curDir.ktab K hK).1, if_pos rfl, hframe]
  have hstore : Returns (storeWord (slotAddr k + 4 * 1023) (mkEntry D (PG_USER ||| PG_RW ||| 1#32)))
      (m.forking D g c) () ((m.forking D g c).setWord D 1023 (mkEntry D 7#32)) := by
    refine storeWord_ok.mpr ⟨D, ?_, ?_⟩
    · show walk _ m.cr3 _ = _
      rw [walk_add _ _ (slot_aligned k) (entry_offset (by decide)),
        (forking_walks h hK hk hpres hframe hspare hhigh).1]
    · rw [wordIndex_add (slot_aligned k) (by decide)]
      rfl
  rw [Returns.bind_iff hown, Returns.bind_iff hstore]
  have hstep := forking_step hne.symm g c 1023 (mkEntry D 7#32) (c 1023)
  have hsame : ((m.forking D g c).setWord D 1023 (mkEntry D 7#32)).ram m.cr3 1023 = c 1023 := by
    rw [setWord_of_ne _ _ _ _ (Or.inl hne), Machine.forking, setFrame_self]
  rw [setWord_same hsame, Function.update_eq_self, hg, childDir_eq] at hstep
  rw [hstep]
  exact ⟨Iff.rfl, forking_env h hK hk hpres hframe hspare hhigh⟩

/-- **`fork_mem`.** -/
theorem forkMem_ok (h : Sound m L T) (hT : T.card ≤ 8) (hA : Hands alloc m) (hA1 : ∀ f, Hands alloc (m.setCount f 1))
    (hK : L.ktab = some K) :
    Returns (forkMem alloc m.cur.pageDirectory) m v m' ↔
      ∃ b D m1, v = slotAddr b ∧ NewPage alloc m L m1 K b D ∧ m' = (m1.copied D).referred := by
  have hrest : ∀ {K' b D m1}, NewPage alloc m L m1 K' b D → (Returns (do
      onlyIf (slotAddr b < KERNEL_MEMORY) (stop .panic)
      copyPage (slotAddr b) m.cur.pageDirectory
      loop (fun i => do
        protectEntry (slotAddr b + 4 * i)
        protectEntry (m.cur.pageDirectory + 4 * i)) (dirIndex KERNEL_MEMORY)
      let own ← pageFrame (slotAddr b)
      storeWord (slotAddr b + 4 * 1023) (mkEntry own (PG_USER ||| PG_RW ||| 1#32))
      incPhysRefs 0 KERNEL_MEMORY
      incPhysRefs (getPageTable 0) (getPageTable KERNEL_MEMORY)
      pure (slotAddr b)) m1 v m' ↔ v = slotAddr b ∧ m' = (m1.copied D).referred) := by
    intro K' b D m1 hN
    obtain ⟨L1, hp, hs1⟩ := hN.kernelPage h hA (hA1 D)
    obtain ⟨hcopy, hE⟩ := @forkMem_copied m1 m' L1 K' b D v (do
      incPhysRefs 0 KERNEL_MEMORY
      incPhysRefs (getPageTable 0) (getPageTable KERNEL_MEMORY)
      pure (slotAddr b)) hs1.holds hp.ktab hp.lt hp.word hp.frame_lt hp.role
    have hge : ¬ slotAddr b < KERNEL_MEMORY := by
      rw [slotAddr, KERNEL_MEMORY]
      omega
    rw [← hp.untouched.cur, onlyIf_neg (decide_eq_false hge), Returns.bind_iff (pure_ok.mpr ⟨rfl, rfl⟩), hcopy,
      incUserRefs_ok hE, pure_ok]
  rw [forkMem, bind_ok]
  constructor
  · rintro ⟨v1, m1, h1, hr⟩
    obtain ⟨K', b, D, rfl, hN⟩ := (allocPage_ok h hT hA hA1).mp h1
    obtain ⟨rfl, rfl⟩ := (hrest hN).mp hr
    cases hN with
    | slot _ _ _ hK' hk hf =>
      obtain rfl : K' = K := Option.some.inj (hK'.symm.trans hK)
      exact ⟨b, D, _, rfl, .slot K' b D hK' hk hf, rfl⟩
    | table _ _ hK' => exact absurd (hK'.symm.trans hK) (by simp)
  · rintro ⟨b, D, m1, rfl, hN, rfl⟩
    exact ⟨_, m1, (allocPage_ok h hT hA hA1).mpr ⟨K, b, D, rfl, hN⟩, (hrest hN).mpr ⟨rfl, rfl⟩⟩

end ForkMem

end Raampjes.Mm
