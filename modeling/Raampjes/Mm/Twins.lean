import Raampjes.Lib.Lockstep
import Raampjes.Mm.NewPages

/-!
# Machines that differ in the contents of pages

- `Twin`: two machines with the same tasks, counters, page directories and page tables. Their pages, and the frames that
  nothing uses, may contain anything; no branch of the kernel depends on that;
- `Twin.sound`, `Twin.walk_eq`, `Twin.permits_eq`: the layout, the translation and the permissions are the same;
- `Twin.change`: what keeps two machines alike, and the single changes.
-/

namespace Raampjes.Mm

open Progs

/-- The machines agree in all that the kernel depends on. -/
structure Twin (L : Layout) (m m₂ : Machine) : Prop where
  bitmap : m₂.bitmap = m.bitmap
  cr3 : m₂.cr3 = m.cr3
  tasks : m₂.tasks = m.tasks
  current : m₂.current = m.current
  low : ∀ i, i < 1024 → m₂.ram L.pt1 i = m.ram L.pt1 i
  ktab : ∀ K i, L.ktab = some K → i < 1024 → m₂.ram K i = m.ram K i
  dir : ∀ p t d, m.tasks p = some t → d < 1024 → m₂.ram (L.dir p) d = m.ram (L.dir p) d
  table : ∀ p t d i, m.tasks p = some t → d < 768 → present (m.ram (L.dir p) d) = true → i < 1024 →
    m₂.ram (frameOf (m.ram (L.dir p) d)) i = m.ram (frameOf (m.ram (L.dir p) d)) i

section Twin

variable {m m' m₂ m₂' : Machine} {L L' : Layout} {T : Finset Nat} {addr d f i : Nat} {w : Word}

/-! ## What is the same -/

section Same

variable (hT : Twin L m m₂) (h : Sound m L T)

include hT

theorem Twin.cur : m₂.cur = m.cur := by rw [Machine.cur, Machine.cur, hT.tasks, hT.current]

theorem Twin.same : SameTasks m m₂ := SameTasks.of_tasks hT.tasks hT.current hT.cr3

include h

/-- **The layout** is the same. -/
theorem Twin.sound : Sound m₂ L T := by
  have hH := h.holds
  refine ⟨hH.congr hT.tasks hT.current hT.cr3 hT.low (fun p t ht d hd => hT.dir p t d ht hd)
    (fun p t ht d hd hp i hi => hT.table p t d i ht hd hp hi) (fun p t _ K k hK hk _ => hT.ktab K k hK hk), ?_⟩
  refine h.tidy.congr rfl rfl hT.tasks hT.low (fun K k hK hk _ => hT.ktab K k hK hk) fun hK d i hpage => ?_
  have hdir : ∀ d, d < 1024 → m₂.ram m₂.cr3 d = m.ram m.cr3 d := by
    intro d hd
    rw [hT.cr3, hH.cr3]
    exact hT.dir _ _ d hH.curTask hd
  obtain ⟨hd, hi, hp, hq⟩ := hpage
  rw [hdir d (by omega)] at hp hq ⊢
  have hword : m₂.ram (frameOf (m.ram m.cr3 d)) i = m.ram (frameOf (m.ram m.cr3 d)) i := by
    rw [hH.cr3] at hp ⊢
    exact hT.table _ _ d i hH.curTask hd hp hi
  rw [hword] at hq ⊢
  exact h.tidy.plain hK d i ⟨hd, hi, hp, hq⟩

theorem Twin.dirWord (hd : d < 1024) : m₂.ram m.cr3 d = m.ram m.cr3 d := by
  rw [h.holds.cr3]
  exact hT.dir _ _ d h.holds.curTask hd

theorem Twin.pde_eq (ha : addr < 2 ^ 32) : m₂.pde addr = m.pde addr := by
  rw [Machine.pde, Machine.pde, hT.cr3]
  exact hT.dirWord h (dirIndex_lt ha)

theorem Twin.tableWord (hd : d < 768) (hp : present (m.ram m.cr3 d) = true) (hi : i < 1024) :
    m₂.ram (frameOf (m.ram m.cr3 d)) i = m.ram (frameOf (m.ram m.cr3 d)) i := by
  rw [h.holds.cr3] at hp ⊢
  exact hT.table _ _ d i h.holds.curTask hd hp hi

/-- The same for the tables of the kernel half. -/
theorem Twin.entryWord (hd : d < 1024) (hp : present (m.ram m.cr3 d) = true) (hi : i < 1024) :
    m₂.ram (frameOf (m.ram m.cr3 d)) i = m.ram (frameOf (m.ram m.cr3 d)) i := by
  by_cases hlt : d < 768
  · exact hT.tableWord h hlt hp hi
  have hD := h.holds.curDir
  rcases hD.high (by omega) hd hp with rfl | ⟨rfl, K, hK, hf⟩ | rfl
  · rw [hD.low_frame]
    exact hT.low i hi
  · rw [hf]
    exact hT.ktab K i hK hi
  · rw [hD.self_frame]
    exact hT.dirWord h hi

theorem Twin.pte_eq (ha : addr < 2 ^ 32) (hp : present (m.pde addr) = true) : m₂.pte addr = m.pte addr := by
  rw [Machine.pte, Machine.pte, hT.pde_eq h ha]
  exact hT.entryWord h (dirIndex_lt ha) hp (pageTableIndex_lt addr)

theorem Twin.walk_eq (ha : addr < 2 ^ 32) : walk m₂.ram m₂.cr3 addr = walk m.ram m.cr3 addr := by
  rw [walk_pte, walk_pte, hT.pde_eq h ha]
  cases hp : present (m.pde addr) with
  | true => rw [hT.pte_eq h ha hp]
  | false => rfl

theorem Twin.permits_eq (ha : addr < 2 ^ 32) (write : Bool) : permits m₂ addr write = permits m addr write := by
  have hper : ∀ n : Machine, permits n addr write = (present (n.pde addr) && present (n.pte addr) && user (n.pde addr) &&
      user (n.pte addr) && (!write || writable (n.pde addr) && writable (n.pte addr))) := fun _ => rfl
  rw [hper, hper, hT.pde_eq h ha]
  cases hp : present (m.pde addr) with
  | true => rw [hT.pte_eq h ha hp]
  | false => rfl

theorem Twin.hasPage_iff (ha : addr < KERNEL_MEMORY) :
    HasPage m₂.ram m₂.cr3 (dirIndex addr) (pageTableIndex addr) ↔
      HasPage m.ram m.cr3 (dirIndex addr) (pageTableIndex addr) := by
  rw [Mm.hasPage_iff ha, Mm.hasPage_iff ha, hT.pde_eq h (user_lt ha)]
  cases hp : present (m.pde addr) with
  | true => rw [hT.pte_eq h (user_lt ha) hp]
  | false => rfl

omit h in
theorem Twin.scan_eq {K : Nat} (hK : L.ktab = some K) : ∀ n, n ≤ 1024 → scan (m₂.ram K) n = scan (m.ram K) n
  | 0, _ => rfl
  | n + 1, hn => by
    rw [scan, scan, hT.ktab K _ hK (by omega), Twin.scan_eq hK n (by omega)]

end Same

/-! ## Changes -/

/-- **Two machines stay alike** when the words that were the same stay the same, and the tables of the running task are
among them. -/
theorem Twin.change (hT : Twin L m m₂) (h : Sound m L T) (hl : Local m L m' L') (hbitmap : m₂'.bitmap = m'.bitmap)
    (hsame : m₂'.cr3 = m'.cr3 ∧ m₂'.tasks = m'.tasks ∧ m₂'.current = m'.current)
    (hkeep : ∀ g i, Reaches m g → i < 1024 → m₂.ram g i = m.ram g i → m₂'.ram g i = m'.ram g i)
    (hnew : ∀ d i, d < 768 → present (m'.ram m.cr3 d) = true → i < 1024 →
      m₂'.ram (frameOf (m'.ram m.cr3 d)) i = m'.ram (frameOf (m'.ram m.cr3 d)) i) : Twin L' m' m₂' := by
  have hH := h.holds
  refine ⟨hbitmap, hsame.1, hsame.2.1, hsame.2.2, fun i hi => ?_, fun K i hK hi => ?_, fun p t d ht hd => ?_,
    fun p t d i ht hd hp hi => ?_⟩
  · rw [hl.pt1]
    exact hkeep _ i hH.reaches_low hi (hT.low i hi)
  · rw [hl.ktab] at hK
    exact hkeep _ i (hH.reaches_ktab hK) hi (hT.ktab K i hK hi)
  · obtain ⟨t0, ht0, _⟩ := hl.same.symm.get ht
    rw [hl.dir]
    exact hkeep _ d (hH.reaches_dir ht0) hd (hT.dir p t0 d ht0 hd)
  · obtain ⟨t0, ht0, _⟩ := hl.same.symm.get ht
    rw [hl.dir] at hp ⊢
    by_cases hcur : p = m.current
    · subst hcur
      rw [← hH.cr3] at hp ⊢
      exact hnew d i hd hp hi
    · rw [hl.other _ ⟨p, t0, ht0, hcur, Or.inl rfl⟩] at hp ⊢
      exact hkeep _ i (hH.reaches_window ht0 (by omega) hp) hi (hT.table p t0 d i ht0 hd hp hi)

/-- Changes of the counters. -/
theorem Twin.setCount (hT : Twin L m m₂) (f : Nat) (n : UInt8) : Twin L (m.setCount f n) (m₂.setCount f n) := by
  refine ⟨?_, hT.cr3, hT.tasks, hT.current, hT.low, hT.ktab, hT.dir, hT.table⟩
  rw [Machine.setCount, Machine.setCount, hT.bitmap]

theorem Twin.drop (hT : Twin L m m₂) (f : Nat) : Twin L (m.drop f) (m₂.drop f) := by
  rw [Machine.drop, Machine.drop, hT.bitmap]
  by_cases hf : m.bitmap f ≠ 0
  · rw [if_pos hf, if_pos hf]
    exact hT.setCount f _
  · rw [if_neg hf, if_neg hf]
    exact hT

/-- Changes of the running task. -/
theorem Twin.setCur (hT : Twin L m m₂) (h : Sound m L T) {t : TaskStruct} (ht : t.key = m.cur.key) :
    Twin L (m.setCur t) (m₂.setCur t) := by
  have hs := sameTasks_setCur h.holds.cur ht
  obtain ⟨_, hl⟩ := h.retask hs rfl
  refine hT.change h hl hT.bitmap ⟨hT.cr3, ?_, hT.current⟩ (fun g i _ _ hg => hg) fun d i hd hp hi => hT.tableWord h hd hp hi
  rw [Machine.setCur, Machine.setCur, hT.tasks, hT.current]

/-- The same word is written to both machines. It is no new page table. -/
theorem Twin.setWord (hT : Twin L m m₂) (h : Sound m L T) (hl : Local m L (m.setWord f i w) L')
    (hw : f = m.cr3 → present w = false) : Twin L' (m.setWord f i w) (m₂.setWord f i w) := by
  have hkeep : ∀ g j, m₂.ram g j = m.ram g j → (m₂.setWord f i w).ram g j = (m.setWord f i w).ram g j := by
    intro g j hg
    rw [setWord_ram, setWord_ram, hg]
  refine hT.change h hl hT.bitmap ⟨hT.cr3, hT.tasks, hT.current⟩ (fun g j _ _ => hkeep g j) fun d j hd hp hj => hkeep _ _ ?_
  by_cases hat : m.cr3 = f ∧ d = i
  · rw [setWord_ram, if_pos hat, hw hat.1.symm] at hp
    cases hp
  · rw [setWord_ram, if_neg hat] at hp ⊢
    exact hT.tableWord h hd hp hj

/-- The same word is written to both machines, in a frame that is no page directory. -/
theorem Twin.setEntry (hT : Twin L m m₂) (hf : ∀ p t, m.tasks p = some t → L.dir p ≠ f) :
    Twin L (m.setWord f i w) (m₂.setWord f i w) := by
  have hkeep : ∀ g j, m₂.ram g j = m.ram g j → (m₂.setWord f i w).ram g j = (m.setWord f i w).ram g j := by
    intro g j hg
    rw [setWord_ram, setWord_ram, hg]
  refine ⟨hT.bitmap, hT.cr3, hT.tasks, hT.current, fun j hj => hkeep _ _ (hT.low j hj),
    fun K j hK hj => hkeep _ _ (hT.ktab K j hK hj), fun p t d ht hd => hkeep _ _ (hT.dir p t d ht hd),
    fun p t d j ht hd hp hj => hkeep _ _ ?_⟩
  rw [setWord_of_ne _ _ _ _ (Or.inl (hf p t ht))] at hp ⊢
  exact hT.table p t d j ht hd hp hj

/-- The new use of a frame does not matter. -/
theorem Twin.use (hT : Twin L m m₂) (f : Nat) (r : Role) : Twin (L.use f r) m m₂ :=
  ⟨hT.bitmap, hT.cr3, hT.tasks, hT.current, hT.low, hT.ktab, hT.dir, hT.table⟩

/-- A table is protected. -/
theorem Twin.protect (hT : Twin L m m₂) (hf : ∀ p t, m.tasks p = some t → L.dir p ≠ f) :
    Twin L (m.protect f) (m₂.protect f) := by
  have hkeep : ∀ g j, j < 1024 → m₂.ram g j = m.ram g j → (m₂.protect f).ram g j = (m.protect f).ram g j := by
    intro g j hj hg
    by_cases hgf : g = f
    · subst hgf
      rw [protect_self hj, protect_self hj, hg]
    · rw [protect_of_ne hgf, protect_of_ne hgf, hg]
  refine ⟨hT.bitmap, hT.cr3, hT.tasks, hT.current, fun j hj => hkeep _ _ hj (hT.low j hj),
    fun K j hK hj => hkeep _ _ hj (hT.ktab K j hK hj), fun p t d ht hd => hkeep _ _ hd (hT.dir p t d ht hd),
    fun p t d j ht hd hp hj => hkeep _ _ hj ?_⟩
  rw [protect_of_ne (hf p t ht)] at hp ⊢
  exact hT.table p t d j ht hd hp hj

/-- A byte is stored, where a page is. -/
theorem Twin.poke (hT : Twin L m m₂) {w₂ : Word} (hf : NoTable m L f) : Twin L (m.setWord f i w) (m₂.setWord f i w₂) := by
  have hne : ∀ (n : Machine) (v : Word) {g : Nat}, g ≠ f → (n.setWord f i v).ram g = n.ram g := fun n v _ hg =>
    funext fun j => setWord_of_ne _ _ _ _ (Or.inl hg)
  refine ⟨hT.bitmap, hT.cr3, hT.tasks, hT.current, fun j hj => ?_, fun K j hK hj => ?_, fun p t d ht hd => ?_,
    fun p t d j ht hd hp hj => ?_⟩
  · rw [hne _ _ hf.low.symm, hne _ _ hf.low.symm]
    exact hT.low j hj
  · rw [hne _ _ (hf.ktab K hK).symm, hne _ _ (hf.ktab K hK).symm]
    exact hT.ktab K j hK hj
  · rw [hne _ _ (hf.dir p t ht).symm, hne _ _ (hf.dir p t ht).symm]
    exact hT.dir p t d ht hd
  · rw [hne _ _ (hf.dir p t ht).symm] at hp ⊢
    rw [hne _ _ (hf.table p t ht d hd hp).symm, hne _ _ (hf.table p t ht d hd hp).symm]
    exact hT.table p t d j ht hd hp hj

end Twin

/-! ## Page tables of one's own -/

/-- The frame that is handed out depends on the counters only. -/
def Even (alloc : Kernel Nat) : Prop :=
  ∀ m m₂ f f₂ m' m₂', m₂.bitmap = m.bitmap → Returns alloc m f m' → Returns alloc m₂ f₂ m₂' → f₂ = f

theorem even_allocPageFrame : Even allocPageFrame := by
  intro m m₂ f f₂ m' m₂' hb hr hr₂
  have hs : searchBitmap m₂ = searchBitmap m := by rw [searchBitmap, searchBitmap, hb]
  rw [allocPageFrame, Returns.bind_iff ((gets_ok _).mpr ⟨rfl, rfl⟩)] at hr hr₂
  rw [hs] at hr₂
  cases hg : searchBitmap m with
  | none =>
    rw [hg] at hr
    exact absurd hr (stop_ok _)
  | some g =>
    rw [hg] at hr hr₂
    obtain ⟨_, _, _, h1⟩ := (bind_ok _ _ _).mp hr
    obtain ⟨_, _, _, h2⟩ := (bind_ok _ _ _).mp hr₂
    rw [(pure_ok.mp h1).1, (pure_ok.mp h2).1]

theorem even_allocUnreferenced : Even allocUnreferenced := fun m m₂ f f₂ m' m₂' hb hr hr₂ =>
  even_allocPageFrame m m₂ f f₂ m' m₂' hb (allocUnreferenced_ok.mp hr).1 (allocUnreferenced_ok.mp hr₂).1

section Tables

variable {alloc : Kernel Nat} {m m' m1 m₂ m₂' m1₂ : Machine} {L L1 L1₂ : Layout} {T : Finset Nat}
  {K k addr new d f t i : Nat} {flags e : Word}

/-- The words of `Machine.unshared` in both machines. -/
theorem unshared_agree (hpde : m₂.pde addr = m.pde addr) (hpte : m₂.pte addr = m.pte addr) {g : Nat} (hg : g ≠ new)
    (hag : m₂.ram g i = m.ram g i) : (m₂.unshared K k addr new e).ram g i = (m.unshared K k addr new e).ram g i := by
  rw [Machine.unshared, Machine.unshared, hpde, hpte, setWord_ram, setWord_ram, drop_ram, drop_ram,
    setFrame_of_ne _ _ _ hg, setFrame_of_ne _ _ _ hg, setWord_ram, setWord_ram, setCount_ram, setCount_ram, setWord_ram,
    setWord_ram, hag]

theorem unshared_agree_new (hpde : m₂.pde addr = m.pde addr) (hpte : m₂.pte addr = m.pte addr) (hi : i < 1024)
    (hag : m₂.ram (frameOf (m.pte addr)) i = m.ram (frameOf (m.pte addr)) i) :
    (m₂.unshared K k addr new e).ram new i = (m.unshared K k addr new e).ram new i := by
  rw [Machine.unshared, Machine.unshared, hpde, hpte, setWord_ram, setWord_ram, drop_ram, drop_ram, setFrame_self,
    setFrame_self, filled_lt hi, filled_lt hi, hag]

theorem unshared_bitmap_eq (hpte : m₂.pte addr = m.pte addr) (hb : m₂.bitmap = m.bitmap) :
    (m₂.unshared K k addr new e).bitmap = (m.unshared K k addr new e).bitmap := by
  have hdrop : ∀ {n n₂ : Machine} (g : Nat), n₂.bitmap = n.bitmap → (n₂.drop g).bitmap = (n.drop g).bitmap := by
    intro n n₂ g hn
    rw [Machine.drop, Machine.drop, hn]
    split
    · rw [Machine.setCount, Machine.setCount, hn]
    · exact hn
  rw [Machine.unshared, Machine.unshared, setWord_bitmap, setWord_bitmap, hpte]
  apply hdrop
  rw [setFrame_bitmap, setFrame_bitmap, setWord_bitmap, setWord_bitmap, Machine.setCount, Machine.setCount, setWord_bitmap,
    setWord_bitmap, hb]

theorem unshared_same : (m.unshared K k addr new e).cr3 = m.cr3 ∧ (m.unshared K k addr new e).tasks = m.tasks ∧
    (m.unshared K k addr new e).current = m.current := by
  simp only [Machine.unshared, setWord_cr3, drop_cr3, setFrame_cr3, setCount_cr3, setWord_tasks, drop_tasks,
    setFrame_tasks, setCount_tasks, setWord_current, drop_current, setFrame_current, setCount_current, and_self]

/-- **The copy of a page table** is the same in both machines. -/
theorem Twin.unsharedTable (hT : Twin L m m₂) (h : Sound m L T) (hK : L.ktab = some K)
    (hk : scan (m.ram K) 1024 = some k) (hd : d < 768) (hp : present (m.ram m.cr3 d) = true) (hlt : new < 2 ^ 20)
    (hfresh : ¬ Reaches m new) :
    Twin (L.use new (.table d)) (m.unshared K k (window d) new e) (m₂.unshared K k (window d) new e) := by
  have hlw : window d < 2 ^ 32 := window_lt (by omega)
  have hpde := hT.pde_eq h hlw
  have hpte := hT.pte_eq h hlw (h.holds.env.pde_window (by omega))
  have hold : m.pte (window d) = m.ram m.cr3 d := h.holds.env.pte_window (by omega)
  obtain ⟨_, hl⟩ := h.unsharedTable hK hk hd hp (e := e) hlt hfresh
  have hap := (Spot.window h.holds hd hp).apart h.holds hfresh
  have hkeep : ∀ g i, Reaches m g → m₂.ram g i = m.ram g i →
      (m₂.unshared K k (window d) new e).ram g i = (m.unshared K k (window d) new e).ram g i := fun g i hg hag =>
    unshared_agree hpde hpte (fun he => hfresh (he ▸ hg)) hag
  refine hT.change h hl (unshared_bitmap_eq hpte hT.bitmap) ?_ (fun g i hg _ => hkeep g i hg) fun d' i hd' hp' hi => ?_
  · rw [unshared_same.1, unshared_same.2.1, unshared_same.2.2, unshared_same.1, unshared_same.2.1, unshared_same.2.2]
    exact ⟨hT.cr3, hT.tasks, hT.current⟩
  · by_cases hdd : d' = d
    · subst hdd
      rw [unshared_pde h.holds hK hd hp hap, frameOf_mkEntry hlt (by decide)]
      refine unshared_agree_new hpde hpte hi ?_
      rw [hold]
      exact hT.tableWord h hd hp hi
    · obtain ⟨hpw, _, hidx⟩ := window_words h.holds hd
      obtain ⟨hdir, _⟩ := @unshared_words m _ L K k new (window d) e hK (Spot.window h.holds hd hp) hap rfl
      rw [hpw, hidx] at hdir
      rw [hdir, Function.update_of_ne hdd] at hp' ⊢
      exact hkeep _ i (h.holds.reaches_table hd' hp') (hT.tableWord h hd' hp' hi)

/-- **A new page table** is the same in both machines. -/
theorem Twin.addTable (hT : Twin L m m₂) (h : Sound m L T) (hd : d < 768) (hfl : Plain flags) (hlt : t < 2 ^ 20)
    (hfresh : ¬ Reaches m t) :
    Twin (L.use t (.table d)) (m.addTable d t flags) (m₂.addTable d t flags) := by
  have hne : t ≠ m.cr3 := fun he => hfresh (he ▸ h.holds.reaches_cr3)
  have hne₂ : t ≠ m₂.cr3 := by rwa [hT.cr3]
  obtain ⟨_, hl⟩ := h.addTable hd hfl hlt hfresh
  have hword : ∀ g j, (g ≠ t → m₂.ram g j = m.ram g j) → j < 1024 →
      (m₂.addTable d t flags).ram g j = (m.addTable d t flags).ram g j := by
    intro g j hg hj
    rw [addTable_eq hne, addTable_eq hne₂, setWord_ram, setWord_ram, setCount_ram, setCount_ram, hT.cr3]
    by_cases hgt : g = t
    · rw [hgt, setFrame_self, setFrame_self, filled_lt hj, filled_lt hj]
    · rw [setFrame_of_ne _ _ _ hgt, setFrame_of_ne _ _ _ hgt, hg hgt]
  refine hT.change h hl ?_ ⟨?_, ?_, ?_⟩ (fun g j _ hj hag => hword g j (fun _ => hag) hj) fun d' j hd' hp hj => ?_
  · rw [addTable_eq hne, addTable_eq hne₂, setWord_bitmap, setWord_bitmap, Machine.setCount, Machine.setCount,
      setFrame_bitmap, setFrame_bitmap, hT.bitmap]
  · rw [addTable_eq hne, addTable_eq hne₂]
    exact hT.cr3
  · rw [addTable_eq hne, addTable_eq hne₂]
    exact hT.tasks
  · rw [addTable_eq hne, addTable_eq hne₂]
    exact hT.current
  · refine hword _ j (fun hft => ?_) hj
    by_cases hdd : d' = d
    · rw [hdd, addTable_eq hne, setWord_self, frameOf_mkEntry hlt (hfl.or plain_three).lt] at hft
      exact absurd rfl hft
    · rw [addTable_of_ne hne hne.symm (Or.inr hdd)] at hp ⊢
      exact hT.tableWord h hd' hp hj

/-- **The page table** that the running task may write to is the same in both machines. -/
theorem Opened.twin (ho : Opened alloc m L d flags m1 L1) (ho₂ : Opened alloc m₂ L d flags m1₂ L1₂) (hE : Even alloc)
    (hT : Twin L m m₂) (h : Sound m L T) (hd : d < 768) (hfl : Plain flags) : Twin L1 m1 m1₂ := by
  have hword : m₂.ram m₂.cr3 d = m.ram m.cr3 d := by
    rw [hT.cr3]
    exact hT.dirWord h (by omega)
  cases ho with
  | made t hp ht hlt hfresh =>
    cases ho₂ with
    | made t₂ hp₂ ht₂ hlt₂ hfresh₂ =>
      obtain rfl : t₂ = t := hE _ _ _ _ _ _ hT.bitmap ht ht₂
      exact hT.addTable h hd hfl hlt hfresh
    | own hp₂ hs₂ =>
      rw [hword, hp] at hp₂
      cases hp₂
    | copied K₂ k₂ new₂ m3 hp₂ hs₂ hK₂ hk₂ hnew₂ hlt₂ hzero₂ hfresh₂ =>
      rw [hword, hp] at hp₂
      cases hp₂
  | own hp hs =>
    cases ho₂ with
    | made t₂ hp₂ ht₂ hlt₂ hfresh₂ =>
      rw [hword, hp] at hp₂
      cases hp₂
    | own hp₂ hs₂ => exact hT
    | copied K₂ k₂ new₂ m3 hp₂ hs₂ hK₂ hk₂ hnew₂ hlt₂ hzero₂ hfresh₂ =>
      rw [hword, hs] at hs₂
      cases hs₂
  | copied K k new m2 hp hs hK hk hnew hlt hzero hfresh =>
    cases ho₂ with
    | made t₂ hp₂ ht₂ hlt₂ hfresh₂ =>
      rw [hword, hp] at hp₂
      cases hp₂
    | own hp₂ hs₂ =>
      rw [hword, hs] at hs₂
      cases hs₂
    | copied K₂ k₂ new₂ m3 hp₂ hs₂ hK₂ hk₂ hnew₂ hlt₂ hzero₂ hfresh₂ =>
      obtain rfl : K₂ = K := Option.some.inj (hK₂.symm.trans hK)
      rw [hT.scan_eq hK _ (le_refl _)] at hk₂
      obtain rfl : k₂ = k := Option.some.inj (hk₂.symm.trans hk)
      have hb : (m₂.setWord K₂ k₂ (mkEntry (frameOf (m₂.ram m₂.cr3 d)) 7#32)).bitmap =
          (m.setWord K₂ k₂ (mkEntry (frameOf (m.ram m.cr3 d)) 7#32)).bitmap := hT.bitmap
      obtain rfl : new₂ = new := hE _ _ _ _ _ _ hb hnew hnew₂
      exact hT.unsharedTable h hK hk hd hp hlt hfresh

end Tables

/-! ## Pages -/

section Pages

variable {alloc : Kernel Nat} {m m' m1 m₂ m₂' m1₂ : Machine} {L L' L₂' L1 L1₂ : Layout} {T : Finset Nat}
  {K k a addr new d f i n : Nat} {fl flags e : Word} {u u₂ : Unit}

/-- A page table is no directory. -/
theorem Holds.table_ne_dir (h : Holds m L) (hd : d < 768) (hp : present (m.ram m.cr3 d) = true) {p : Nat} {t : TaskStruct}
    (ht : m.tasks p = some t) : L.dir p ≠ frameOf (m.ram m.cr3 d) :=
  ne_of_role (h.task p t ht).role (h.curSpace.table d hd hp) (by simp)

/-- **A page that gets a frame**: the page is the same in both machines, though not what it contains. -/
theorem FilledWith.twin (hF : FilledWith alloc m L a fl flags m' L') (hF₂ : FilledWith alloc m₂ L a fl flags m₂' L₂')
    (hE : Even alloc) (hT : Twin L m m₂) (h : Sound m L T) (ha : a < KERNEL_MEMORY) (hfl : Plain fl) : Twin L' m' m₂' := by
  obtain ⟨f, m1, L1, hf, hlt, _, hfresh, ho, rfl, rfl⟩ := hF
  obtain ⟨f₂, m1₂, L1₂, hf₂, _, _, _, ho₂, rfl, _⟩ := hF₂
  obtain rfl : f₂ = f := hE _ _ _ _ _ _ hT.bitmap hf hf₂
  have hd := dirIndex_user ha
  obtain ⟨h1, _⟩ := h.taken hfresh
  have hT1 := ho.twin ho₂ hE ((hT.setCount f₂ 1).use f₂ .unused) h1 hd hfl
  obtain ⟨h2, l2⟩ := ho.sound h1 hd hfl
  have hp : present (m1.ram m1.cr3 (dirIndex a)) = true := by
    rw [l2.same.cr3]
    exact (ho.private_ h1 hd hfl).1
  rw [Machine.mapped, Machine.mapped, hT1.pde_eq h2 (user_lt ha)]
  exact (hT1.setEntry fun p t ht => h2.holds.table_ne_dir hd hp ht).use f₂ .data

/-- **Freeing a page.** -/
theorem Twin.freePage (hT : Twin L m m₂) (h : Sound m L ∅) (hE : Even alloc) (hA : ∀ m, Hands alloc m)
    (ha : addr < KERNEL_MEMORY) (hr : Returns (freePageWith (copyPageTable alloc (n + 1)) addr) m u m')
    (hr₂ : Returns (freePageWith (copyPageTable alloc (n + 1)) addr) m₂ u₂ m₂') :
    ∃ L', Sound m' L' ∅ ∧ Twin L' m' m₂' := by
  have h₂ := hT.sound h
  have hd := dirIndex_user ha
  have hlt := user_lt ha
  have hiff := hT.hasPage_iff h ha
  rcases freePage_cases h (by simp) ha hA hr with ⟨hno, rfl⟩ | ⟨hpage, m1, L1, ho, rfl⟩
  · rcases freePage_cases h₂ (by simp) ha hA hr₂ with ⟨_, rfl⟩ | ⟨hpage₂, _⟩
    · exact ⟨L, h, hT⟩
    · exact absurd (hiff.mp hpage₂) hno
  · rcases freePage_cases h₂ (by simp) ha hA hr₂ with ⟨hno₂, _⟩ | ⟨_, m1₂, L1₂, ho₂, rfl⟩
    · exact absurd (hiff.mpr hpage) hno₂
    rw [hT.pte_eq h hlt hpage.2.2.1] at ho₂
    obtain ⟨h1, l1⟩ := h.drop (frameOf (m.pte addr))
    have hT1 := ho.twin ho₂ hE (hT.drop _) h1 hd plain_zero
    obtain ⟨h2, l2⟩ := ho.sound h1 hd plain_zero
    have hp : present (m1.ram m1.cr3 (dirIndex addr)) = true := by
      rw [l2.same.cr3]
      exact (ho.private_ h1 hd plain_zero).1
    refine ⟨L1, (ho.unmapped h1 ha).1, ?_⟩
    rw [Machine.unmapped, Machine.unmapped, hT1.pde_eq h2 hlt, hT1.pte_eq h2 hlt hp]
    exact hT1.setEntry fun p t ht => h2.holds.table_ne_dir hd hp ht

/-- **Freeing a page table.** -/
theorem Twin.freeTable {copy : Nat → Kernel Unit} (hT : Twin L m m₂) (h : Sound m L ∅) (hd : d < 768)
    (hr : Returns (freePageWith copy (window d)) m u m') (hr₂ : Returns (freePageWith copy (window d)) m₂ u₂ m₂') :
    Sound m' L ∅ ∧ Twin L m' m₂' := by
  rw [freeTable_ok h.holds hd] at hr
  rw [freeTable_ok (hT.sound h).holds hd, hT.cr3, hT.dirWord h (by omega)] at hr₂
  rw [hr, hr₂]
  cases hp : present (m.ram m.cr3 d) with
  | false =>
    rw [if_neg Bool.false_ne_true, if_neg Bool.false_ne_true]
    exact ⟨h, hT⟩
  | true =>
    rw [if_pos rfl, if_pos rfl]
    obtain ⟨h1, _⟩ := h.drop (frameOf (m.ram m.cr3 d))
    obtain ⟨h2, l2⟩ := h1.clearPde hd
    have hcr3 : (m.drop (frameOf (m.ram m.cr3 d))).cr3 = m.cr3 := drop_cr3 _ _
    have hram : (m.drop (frameOf (m.ram m.cr3 d))).ram = m.ram := drop_ram _ _
    rw [hcr3, hram] at h2 l2
    exact ⟨h2, (hT.drop _).setWord h1 l2 fun _ => present_absent _⟩

/-- The first stage of a write fault. -/
theorem Split.twin (ho : Split alloc m L d m1 L1) (ho₂ : Split alloc m₂ L d m1₂ L1₂) (hE : Even alloc) (hT : Twin L m m₂)
    (h : Sound m L T) (hd : d < 768) (hp : present (m.ram m.cr3 d) = true) : Twin L1 m1 m1₂ := by
  have hword : m₂.ram m₂.cr3 d = m.ram m.cr3 d := by
    rw [hT.cr3]
    exact hT.dirWord h (by omega)
  cases ho with
  | own hc =>
    cases ho₂ with
    | own hc₂ => exact hT
    | copied K₂ k₂ new₂ m3 hc₂ hK₂ hk₂ hnew₂ hlt₂ hzero₂ hfresh₂ =>
      rw [hword, hc] at hc₂
      cases hc₂
  | copied K k new m2 hc hK hk hnew hlt hzero hfresh =>
    cases ho₂ with
    | own hc₂ =>
      rw [hword, hc] at hc₂
      cases hc₂
    | copied K₂ k₂ new₂ m3 hc₂ hK₂ hk₂ hnew₂ hlt₂ hzero₂ hfresh₂ =>
      obtain rfl : K₂ = K := Option.some.inj (hK₂.symm.trans hK)
      rw [hT.scan_eq hK _ (le_refl _)] at hk₂
      obtain rfl : k₂ = k := Option.some.inj (hk₂.symm.trans hk)
      have hb : (m₂.setWord K₂ k₂ (mkEntry (frameOf (m₂.ram m₂.cr3 d)) 7#32)).bitmap =
          (m.setWord K₂ k₂ (mkEntry (frameOf (m.ram m.cr3 d)) 7#32)).bitmap := hT.bitmap
      obtain rfl : new₂ = new := hE _ _ _ _ _ _ hb hnew hnew₂
      have htasks := (@unshared_same m K₂ k₂ (window d) new₂ 6#32).2.1
      refine (hT.unsharedTable h hK hk hd hp hlt hfresh).protect fun p t ht => ?_
      rw [htasks] at ht
      exact fun he => hfresh (he ▸ h.holds.reaches_dir ht)

/-- The second stage. -/
theorem Twin.unsharedPage (hT : Twin L m m₂) (h : Sound m L T) (hK : L.ktab = some K)
    (hk : scan (m.ram K) 1024 = some k) (ha : addr < KERNEL_MEMORY)
    (hpage : HasPage m.ram m.cr3 (dirIndex addr) (pageTableIndex addr)) (hs : shared (m.pde addr) = false)
    (hlt : new < 2 ^ 20) (hfresh : ¬ Reaches m new) :
    Twin (L.use new .data) (m.unshared K k addr new e) (m₂.unshared K k addr new e) := by
  have hpde := hT.pde_eq h (user_lt ha)
  have hpte := hT.pte_eq h (user_lt ha) hpage.2.2.1
  obtain ⟨_, hl⟩ := h.unsharedPage hK hk (user_lt ha) hpage hs (e := e) hlt hfresh
  have hR := @replaced m L T K k addr new e h hK ha hpage hs hfresh
  have hkeep : ∀ g i, Reaches m g → m₂.ram g i = m.ram g i →
      (m₂.unshared K k addr new e).ram g i = (m.unshared K k addr new e).ram g i := fun g i hg hag =>
    unshared_agree hpde hpte (fun he => hfresh (he ▸ hg)) hag
  refine hT.change h hl (unshared_bitmap_eq hpte hT.bitmap) ?_ (fun g i hg _ => hkeep g i hg) fun d i hd hp hi => ?_
  · rw [unshared_same.1, unshared_same.2.1, unshared_same.2.2, unshared_same.1, unshared_same.2.1, unshared_same.2.2]
    exact ⟨hT.cr3, hT.tasks, hT.current⟩
  · rw [hR.dir] at hp ⊢
    exact hkeep _ i (h.holds.reaches_table hd hp) (hT.tableWord h hd hp hi)

end Pages

end Raampjes.Mm
