import Raampjes.Lib.Ghost
import Raampjes.Mm.Local

/-!
# The user half of the running task

`map_page` and `free_page` below `KERNEL_MEMORY`, with a page table that is missing, private or shared, and the freeing
of page tables through the window. Each has a lemma for the state after it and one for what it keeps.

- `mapPage_cases`, `mapPage_sound`: mapping a frame of no use;
- `freePage_cases`, `freePage_sound`, `freeTable_ok`: unmapping pages and tables;
- `Guards`: programs that keep the layout, with the rules for sequences and loops.
-/

namespace Raampjes.Mm

open Progs Sched

variable {s : Bool}

/-! ## Programs that keep the layout -/

/-- The program keeps the layout, up to frames with a new use, and relates the states before and after. -/
def Guards {α : Type} (R : Machine × Layout → Machine × Layout → Prop) (x : Kernel α) : Prop :=
  ∀ m L a m', Sound m L ∅ → Returns x m a m' → ∃ L', Sound m' L' ∅ ∧ R (m, L) (m', L')

section Guards

variable {R : Machine × Layout → Machine × Layout → Prop}

theorem Guards.loop [Std.Refl R] [IsTrans _ R] {body : Nat → Kernel Unit} {n : Nat}
    (h : ∀ i, i < n → Guards R (body i)) : Guards R (loop body n) := Upholds.loop h

end Guards

/-- `Local` for `Guards`. -/
def Leaves (c c' : Machine × Layout) : Prop := Local c.1 c.2 c'.1 c'.2

instance : Std.Refl Leaves := ⟨fun c => Local.refl c.1 c.2⟩

instance : IsTrans (Machine × Layout) Leaves := ⟨fun _ _ _ h h' => Local.trans h h'⟩

/-! ## Mapping a page -/

/-- The entry that `map_page` writes. -/
def Machine.mapped (m : Machine) (addr f : Nat) (flags : Word) : Machine :=
  m.setWord (frameOf (m.pde addr)) (pageTableIndex addr) (mkEntry f (flags ||| 1#32))

/-- Flags that only the processor reads. -/
structure Plain (flags : Word) : Prop where
  lt : flags.toNat < 2 ^ 12
  unshared : shared flags = false
  uncow : cowDir flags = false

theorem plain_user : Plain PG_USER := ⟨by decide, by decide, by decide⟩

theorem plain_userRw : Plain (PG_USER ||| PG_RW) := ⟨by decide, by decide, by decide⟩

theorem plain_three : Plain 3#32 := ⟨by decide, by decide, by decide⟩

theorem Plain.or {a b : Word} (ha : Plain a) (hb : Plain b) : Plain (a ||| b) := by
  refine ⟨?_, ?_, ?_⟩
  · rw [BitVec.toNat_or]
    exact Nat.or_lt_two_pow ha.lt hb.lt
  · rw [shared_or, ha.unshared, hb.unshared]
    rfl
  · rw [cowDir_or, ha.uncow, hb.uncow]
    rfl

theorem plain_one : Plain 1#32 := ⟨by decide, by decide, by decide⟩

theorem user_lt {addr : Nat} (ha : addr < KERNEL_MEMORY) : addr < 2 ^ 32 := by
  rw [KERNEL_MEMORY] at ha
  omega

section MapPage

variable {alloc : Kernel Nat} {copy : Nat → Kernel Unit} {m m' : Machine} {L : Uses s} {T : Finset Nat}
  {K k d f t new addr v n : Nat} {flags : Word} {u : Unit}

theorem addTable_eq (hne : t ≠ m.cr3) :
    m.addTable d t flags =
      ((m.setFrame t (filled 1024 (fun _ => 0#32) (m.ram t))).setCount t 1).setWord m.cr3 d (mkEntry t (flags ||| 3#32)) := by
  simp only [Machine.addTable, Machine.setWord, Machine.setFrame, Machine.setCount]
  congr 1
  funext g
  by_cases hg : g = t
  · subst hg
    simp [hne]
  · by_cases hc : g = m.cr3
    · subst hc
      simp [hg]
    · simp [hg, hc]

/-- **A new page table.** -/
theorem Sound.addTable (h : Sound m L T) (hd : d < 768) (hfl : Plain flags) (hlt : t < 2 ^ 20) (ht : ¬ Reaches m t) :
    Sound (m.addTable d t flags) (L.use t (.table (entryOf s d))) T ∧
      Local m L (m.addTable d t flags) (L.use t (.table (entryOf s d))) := by
  have hne : t ≠ m.cr3 := fun he => ht (he ▸ h.holds.reaches_cr3)
  rw [addTable_eq hne]
  obtain ⟨h1, l1⟩ := h.setFrame (h.holds.spare_of_unreached ht) (filled 1024 (fun _ => 0#32) (m.ram t))
  have hspare : Spare (m.setFrame t (filled 1024 (fun _ => 0#32) (m.ram t))) L t := by
    have hn := h.holds.noTable_of_unreached ht
    have hdir : ∀ p u, m.tasks p = some u → (m.setFrame t (filled 1024 (fun _ => 0#32) (m.ram t))).ram (L.dir p) =
        m.ram (L.dir p) := fun p u hu => setFrame_of_ne _ _ _ (hn.dir p u hu).symm
    have htab : ∀ p u d, m.tasks p = some u → d < 768 → present (m.ram (L.dir p) d) = true →
        (m.setFrame t (filled 1024 (fun _ => 0#32) (m.ram t))).ram (frameOf (m.ram (L.dir p) d)) =
        m.ram (frameOf (m.ram (L.dir p) d)) :=
      fun p u d hu hd hp => setFrame_of_ne _ _ _ (hn.table p u hu d hd hp).symm
    refine ⟨⟨hn.low, hn.ktab, hn.dir, ?_⟩, ?_, (h.holds.spare_of_unreached ht).own⟩
    · intro p u hu d hd hp
      rw [hdir p u hu] at hp ⊢
      exact hn.table p u hu d hd hp
    · rintro p u hu d i ⟨hd, hi, hp, hpi⟩
      rw [hdir p u hu] at hp hpi
      rw [htab p u d hu hd hp] at hpi
      rw [pageOf, hdir p u hu, htab p u d hu hd hp]
      exact (h.holds.spare_of_unreached ht).page p u hu d i ⟨hd, hi, hp, hpi⟩
  obtain ⟨h2, l2⟩ := h1.use hspare (.table (entryOf s d))
  obtain ⟨h3, l3⟩ := h2.setCount t 1
  have hw : frameOf (mkEntry t (flags ||| 3#32)) = t := frameOf_mkEntry hlt (hfl.or plain_three).lt
  have hH := h3.holds.setPde hd (w := mkEntry t (flags ||| 3#32)) ⟨?_, ?_, ?_, ?_, ?_, ?_, ?_⟩
  · obtain ⟨h4, l4⟩ := h3.setPde hd hH (by
      intro _ _ i hi hp
      rw [hw, setCount_ram, setFrame_self, filled_lt hi] at hp
      exact absurd hp (by decide))
    exact ⟨h4, (l1.trans l2).trans (l3.trans l4)⟩
  · intro _
    rw [hw]
    exact use_role_self ..
  · intro _ q u d' hu hd' _ hp
    rw [hw]
    exact (hspare.noTable.table q u hu d' hd' hp).symm
  · intro _ i hi hp
    rw [hw, setCount_ram, setFrame_self, filled_lt hi] at hp
    exact absurd hp (by decide)
  · rw [cowDir_mkEntry, shared_mkEntry, (hfl.or plain_three).uncow, (hfl.or plain_three).unshared]
    exact fun _ => rfl
  · intro _ hs
    rw [shared_mkEntry, (hfl.or plain_three).unshared] at hs
    cases hs
  · intro _ _ _ i hi hp
    rw [hw, setCount_ram, setFrame_self, filled_lt hi] at hp
    exact absurd hp (by decide)
  · intro _
    rw [shared_mkEntry, (hfl.or plain_three).unshared]

/-- The end of `map_page`. -/
theorem mapPage_tail (h : Env m) (ha : addr < 2 ^ 32) (hp : present (m.pde addr) = true) :
    Returns (do
      let entry ← getPageEntry addr
      storeWord entry (mkEntry f flags ||| 1#32)
      pure addr) m v m' ↔ v = addr ∧ m' = m.mapped addr f flags := by
  have hentry := (@getPageEntry_ok m m h addr ha _).mpr ⟨rfl, rfl⟩
  rw [if_pos hp] at hentry
  rw [Returns.bind_iff hentry, Returns.bind_iff ((storeEntry_ok (u := ()) h ha hp).mpr rfl), pure_ok, mkEntry_or,
    Machine.mapped]

theorem addTable_pde (hne : t ≠ m.cr3) : (m.addTable (dirIndex addr) t flags).pde addr = mkEntry t (flags ||| 3#32) := by
  rw [addTable_eq hne]
  exact setWord_self ..

/-- `map_page` without a page table. -/
theorem mapPage_absent (h : Sound m L T) (ha : addr < KERNEL_MEMORY) (hp : present (m.pde addr) = false)
    (hfl : Plain flags) (hA : Hands alloc m) :
    Returns (mapPageWith alloc copy f addr flags) m v m' ↔ v = addr ∧
      ∃ t, Returns alloc m t (m.setCount t 1) ∧ m' = (m.addTable (dirIndex addr) t flags).mapped addr f flags := by
  have hlt := user_lt ha
  have hd := dirIndex_user ha
  have hnew : ∀ t m1, Returns alloc m t m1 → t < 2 ^ 20 ∧ t ≠ m.cr3 ∧ m1 = m.setCount t 1 := by
    intro t m1 ht
    obtain ⟨h1, _, h3, h4⟩ := hA.take ht
    exact ⟨h1, fun he => h4 (he ▸ h.holds.reaches_cr3), h3⟩
  have hrest : ∀ t, Returns alloc m t (m.setCount t 1) →
      (Returns (do
        let pde ← dirEntry (dirIndex addr)
        onlyIf (shared pde) (copy (getPageTable addr))
        let entry ← getPageEntry addr
        storeWord entry (mkEntry f flags ||| 1#32)
        pure addr) (m.addTable (dirIndex addr) t flags) v m' ↔
          v = addr ∧ m' = (m.addTable (dirIndex addr) t flags).mapped addr f flags) := by
    intro t ht
    obtain ⟨htlt, _, _, hfresh⟩ := hA.take ht
    obtain ⟨_, hne, _⟩ := hnew t _ ht
    have hE := (h.addTable hd hfl htlt hfresh).1.holds.env
    have hpde := @addTable_pde m t addr flags hne
    have hdir := (@dirEntry_ok _ _ hE _ (dirIndex_lt hlt) _).mpr ⟨rfl, rfl⟩
    rw [← Machine.pde, hpde] at hdir
    have hs : shared (mkEntry t (flags ||| 3#32)) = false := by rw [shared_mkEntry, (hfl.or plain_three).unshared]
    rw [Returns.bind_iff hdir, onlyIf_neg hs, Returns.bind_iff (pure_ok.mpr ⟨rfl, rfl⟩), mapPage_tail hE hlt]
    rw [hpde]
    simp
  have hentry := (@getPageEntry_ok m m h.holds.env addr hlt _).mpr ⟨rfl, rfl⟩
  rw [if_neg (by rw [hp]; exact Bool.false_ne_true)] at hentry
  rw [mapPageWith, Returns.bind_iff hentry, onlyIf_pos (decide_eq_true rfl), bind_ok]
  constructor
  · rintro ⟨_, m1, h1, hr⟩
    obtain ⟨pt, m2, h2, h1⟩ := (bind_ok _ _ _).mp h1
    obtain ⟨_, rfl⟩ := pure_ok.mp h1
    obtain ⟨t, ht, _, rfl⟩ := (addPageTable_ok h.holds.env hlt hp hfl.lt hnew).mp h2
    obtain ⟨hv, hm⟩ := (hrest t ht).mp hr
    exact ⟨hv, t, ht, hm⟩
  · rintro ⟨hv, t, ht, hm⟩
    have h2 := (addPageTable_ok h.holds.env hlt hp hfl.lt hnew).mpr ⟨t, ht, rfl, rfl⟩
    exact ⟨(), _, (bind_ok _ _ _).mpr ⟨_, _, h2, pure_ok.mpr ⟨rfl, rfl⟩⟩, (hrest t ht).mpr ⟨hv, hm⟩⟩

/-- How the page table of directory entry `d` becomes one that the running task may write to. -/
inductive Opened (alloc : Kernel Nat) (m : Machine) (L : Uses s) (d : Nat) (flags : Word) : Machine → Uses s → Prop
  | made (t : Nat) (hp : present (m.ram m.cr3 d) = false) (ht : Returns alloc m t (m.setCount t 1)) (hlt : t < 2 ^ 20)
      (hfresh : ¬ Reaches m t) : Opened alloc m L d flags (m.addTable d t flags) (L.use t (.table (entryOf s d)))
  | own (hp : present (m.ram m.cr3 d) = true) (hs : shared (m.ram m.cr3 d) = false) : Opened alloc m L d flags m L
  | copied (K k new : Nat) (m1 : Machine) (hp : present (m.ram m.cr3 d) = true) (hs : shared (m.ram m.cr3 d) = true)
      (hK : L.ktab = some K) (hk : scan (m.ram K) 1024 = some k)
      (hnew : Returns alloc (m.setWord K k (mkEntry (frameOf (m.ram m.cr3 d)) 7#32)) new m1) (hlt : new < 2 ^ 20)
      (hzero : m.bitmap new = 0) (hfresh : ¬ Reaches m new) :
      Opened alloc m L d flags (m.unshared K k (window d) new 6#32) (L.use new (.table (entryOf s d)))

/-- The kernel's page table, once it has one, has a free slot. -/
def Slack (m : Machine) (L : Uses s) : Prop := ∀ K, L.ktab = some K → ∃ k, scan (m.ram K) 1024 = some k

theorem Sound.slack (h : Sound m L T) (hT : T.card ≤ 8) : Slack m L := fun _ hK => h.tidy.room h.holds hK hT

/-- With a shared table the kernel has a page table. -/
theorem Slack.room (hroom : Slack m L) (h : Sound m L T) (hd : d < 768) (hs : shared (m.ram m.cr3 d) = true) :
    ∃ K k, L.ktab = some K ∧ scan (m.ram K) 1024 = some k := by
  cases hK : L.ktab with
  | none =>
    obtain ⟨h1, h2⟩ := h.holds.single hK
    rw [h.holds.cr3, h1 _ h.holds.cur, h2 d hd] at hs
    cases hs
  | some K =>
    obtain ⟨k, hk⟩ := hroom K hK
    exact ⟨K, k, rfl, hk⟩

theorem unshared_pde (h : Holds m L) (hK : L.ktab = some K) (hd : d < 768) (hp : present (m.ram m.cr3 d) = true)
    (hnew : Apart m L (window d) new) : (m.unshared K k (window d) new flags).ram m.cr3 d = mkEntry new 7#32 := by
  have hx := Spot.window h hd hp
  have hpde : frameOf (m.pde (window d)) = m.cr3 := by
    rw [Machine.pde, dirIndex_window' (by omega)]
    exact h.env.self_frame
  have hi : pageTableIndex (window d) = d := @pageTableIndex_window d 0 (by omega) (by decide)
  have hKc : m.cr3 ≠ K := ne_of_role h.current_role (h.ktab_role K hK) (by simp)
  rw [unshared_eq hK hx hnew, setWord_of_ne _ _ _ _ (Or.inl hKc), drop_ram, hpde, hi]
  exact setWord_self ..

/-- `copy_page_table` of a table of the running task. -/
theorem copyPageTable_cases (h : Sound m L T) (hT : T.card ≤ 8) (hd : d < 768) (hp : present (m.ram m.cr3 d) = true)
    (hs : shared (m.ram m.cr3 d) = true) (hA : Hands alloc m)
    (hr : Returns (copyPageTable alloc (n + 1) (window d)) m u m') :
    ∃ K k new m1, L.ktab = some K ∧ scan (m.ram K) 1024 = some k ∧
      Returns alloc (m.setWord K k (mkEntry (frameOf (m.ram m.cr3 d)) 7#32)) new m1 ∧ new < 2 ^ 20 ∧
      m.bitmap new = 0 ∧ ¬ Reaches m new ∧ m' = m.unshared K k (window d) new 6#32 := by
  obtain ⟨K, k, hK, hk⟩ := (h.slack hT).room h hd hs
  have hpte : m.pte (window d) = m.ram m.cr3 d := h.holds.env.pte_window (by omega)
  rw [copyPageTable_succ, unshare_ok h.holds hK hk (Spot.window h.holds hd hp) (by decide) hA, hpte] at hr
  obtain ⟨new, m1, hnew, hlt, hzero, hfresh, hm⟩ := hr
  exact ⟨K, k, new, m1, hK, hk, hnew, hlt, hzero, hfresh, hm⟩

section Opened

variable {m1 : Machine} {L1 : Uses s}

theorem Opened.sound (ho : Opened alloc m L d flags m1 L1) (h : Sound m L T) (hd : d < 768) (hfl : Plain flags) :
    Sound m1 L1 T ∧ Local m L m1 L1 := by
  cases ho with
  | made t hp ht hlt hfresh => exact h.addTable hd hfl hlt hfresh
  | own hp hs => exact ⟨h, Local.refl m L⟩
  | copied K k new m1 hp hs hK hk hnew hlt hzero hfresh => exact h.unsharedTable hK hk hd hp hlt hfresh

/-- Afterwards the table is there and private. -/
theorem Opened.private_ (ho : Opened alloc m L d flags m1 L1) (h : Sound m L T) (hd : d < 768) (hfl : Plain flags) :
    present (m1.ram m.cr3 d) = true ∧ shared (m1.ram m.cr3 d) = false := by
  cases ho with
  | made t hp ht hlt hfresh =>
    have hne : t ≠ m.cr3 := fun he => hfresh (he ▸ h.holds.reaches_cr3)
    rw [addTable_eq hne, setWord_self, shared_mkEntry, (hfl.or plain_three).unshared]
    exact ⟨by simp, rfl⟩
  | own hp hs => exact ⟨hp, hs⟩
  | copied K k new m1 hp hs hK hk hnew hlt hzero hfresh =>
    rw [unshared_pde h.holds hK hd hp ((Spot.window h.holds hd hp).apart h.holds hfresh)]
    exact ⟨by simp, by simp⟩

/-- A frame that is counted is not the one that was taken. -/
theorem Opened.role (ho : Opened alloc m L d flags m1 L1) (hA : Hands alloc m) (hf : m.bitmap f ≠ 0) :
    L1.role f = L.role f := by
  cases ho with
  | made t hp ht hlt hfresh =>
    refine use_role_of_ne L _ ?_
    rintro rfl
    exact hf (hA.take ht).2.1
  | own hp hs => rfl
  | copied K k new m1 hp hs hK hk hnew hlt hzero hfresh =>
    refine use_role_of_ne L _ ?_
    rintro rfl
    exact hf hzero

end Opened

/-- **Mapping a page.** -/
theorem mapPage_cases (h : Sound m L T) (hT : T.card ≤ 8) (ha : addr < KERNEL_MEMORY) (hfl : Plain flags)
    (hA : Hands alloc m) (hr : Returns (mapPageWith alloc (copyPageTable alloc (n + 1)) f addr flags) m v m') :
    v = addr ∧ ∃ m1 L1, Opened alloc m L (dirIndex addr) flags m1 L1 ∧ m' = m1.mapped addr f flags := by
  have hlt := user_lt ha
  have hd := dirIndex_user ha
  cases hp : present (m.pde addr) with
  | false =>
    obtain ⟨hv, t, ht, hm⟩ := (mapPage_absent h ha hp hfl hA).mp hr
    obtain ⟨htlt, _, _, hfresh⟩ := hA.take ht
    exact ⟨hv, _, _, .made t hp ht htlt hfresh, hm⟩
  | true =>
    cases hs : shared (m.pde addr) with
    | false =>
      obtain ⟨hv, hm⟩ := (mapPage_ok h.holds.env hlt hp hs).mp hr
      exact ⟨hv, m, L, .own hp hs, hm⟩
    | true =>
      have hentry := (@getPageEntry_ok m m h.holds.env addr hlt _).mpr ⟨rfl, rfl⟩
      rw [if_pos hp] at hentry
      have hdir : Returns (dirEntry (dirIndex addr)) m (m.pde addr) m :=
        (dirEntry_ok h.holds.env (dirIndex_lt hlt)).mpr ⟨rfl, rfl⟩
      rw [mapPageWith, Returns.bind_iff hentry, onlyIf_neg (decide_eq_false (entryAddr_ne addr)),
        Returns.bind_iff (pure_ok.mpr ⟨rfl, rfl⟩), Returns.bind_iff hdir, onlyIf_pos hs,
        getPageTable_eq (dirIndex_lt hlt).le] at hr
      obtain ⟨_, m1, h1, hr⟩ := (bind_ok _ _ _).mp hr
      obtain ⟨K, k, new, m2, hK, hk, hnew, hnlt, hzero, hfresh, rfl⟩ := copyPageTable_cases h hT hd hp hs hA h1
      have ho : Opened alloc m L (dirIndex addr) flags (m.unshared K k (window (dirIndex addr)) new 6#32)
          (L.use new (.table (entryOf s (dirIndex addr)))) := .copied K k new m2 hp hs hK hk hnew hnlt hzero hfresh
      obtain ⟨h2, l2⟩ := ho.sound h hd hfl
      have hpre := (ho.private_ h hd hfl).1
      rw [← l2.same.cr3] at hpre
      obtain ⟨hv, hm⟩ := (mapPage_tail h2.holds.env hlt hpre).mp hr
      exact ⟨hv, _, _, ho, hm⟩

/-- What mapping a frame of no use keeps. -/
theorem Opened.mapped {m1 : Machine} {L1 : Uses s} {fl : Word} (ho : Opened alloc m L (dirIndex addr) fl m1 L1)
    (h : Sound m L T) (ha : addr < KERNEL_MEMORY) (hfl : Plain fl) (hfl' : Plain flags) (hA : Hands alloc m)
    (hlt : f < 2 ^ 20) (hf : L.role f = .unused) (hcount : m.bitmap f ≠ 0) :
    Sound (m1.mapped addr f flags) (L1.use f .data) T ∧ Local m L (m1.mapped addr f flags) (L1.use f .data) := by
  have hd := dirIndex_user ha
  obtain ⟨h1, l1⟩ := ho.sound h hd hfl
  obtain ⟨hp, hs⟩ := ho.private_ h hd hfl
  have hrole : L1.role f = .unused := (ho.role hA hcount).trans hf
  have hspare := h1.holds.spare_of_unused hrole
  obtain ⟨h2, l2⟩ := h1.use hspare .data
  rw [← l1.same.cr3] at hp hs
  have hw : frameOf (mkEntry f (flags ||| 1#32)) = f := frameOf_mkEntry hlt (hfl'.or plain_one).lt
  obtain ⟨h3, l3⟩ := h2.setPte (i := pageTableIndex addr) (w := mkEntry f (flags ||| 1#32)) hd hp hs (by
    intro _
    rw [hw]
    refine ⟨use_role_self .., fun _ => ?_⟩
    intro d' i' hpage heq
    rw [h1.holds.cr3] at hpage heq
    exact absurd heq.symm (hspare.page _ _ h1.holds.curTask d' i' hpage)) (by
    intro _ _ hsh
    rw [shared_mkEntry, (hfl'.or plain_one).unshared] at hsh
    cases hsh) (by
    intro _ _
    rw [shared_mkEntry, (hfl'.or plain_one).unshared])
  exact ⟨h3, (l1.trans l2).trans l3⟩

end MapPage

/-! ## Unmapping -/

/-- `*page_entry &= ~1` for the entry of `addr`. -/
def Machine.unmapped (m : Machine) (addr : Nat) : Machine :=
  m.setWord (frameOf (m.pde addr)) (pageTableIndex addr) (absent (m.pte addr))

section Free

variable {alloc : Kernel Nat} {m m' : Machine} {L : Uses s} {T : Finset Nat} {d f addr n : Nat} {u : Unit}

/-- **Freeing a page** of the user half. -/
theorem freePage_cases (h : Sound m L T) (hT : T.card ≤ 8) (ha : addr < KERNEL_MEMORY)
    (hA : ∀ m, Hands alloc m) (hr : Returns (freePageWith (copyPageTable alloc (n + 1)) addr) m u m') :
    (¬ HasPage m.ram m.cr3 (dirIndex addr) (pageTableIndex addr) ∧ m' = m) ∨
    (HasPage m.ram m.cr3 (dirIndex addr) (pageTableIndex addr) ∧ ∃ m1 L1,
      Opened alloc (m.drop (frameOf (m.pte addr))) L (dirIndex addr) 0#32 m1 L1 ∧ m' = m1.unmapped addr) := by
  have hlt := user_lt ha
  have hd := dirIndex_user ha
  have hi := pageTableIndex_lt addr
  rw [freePageWith, Returns.bind_iff ((pagePresent_ok h.holds.env hlt).mpr ⟨rfl, rfl⟩)] at hr
  cases hpe : present (m.pde addr) && present (m.pte addr) with
  | false =>
    rw [hpe, onlyIf_neg rfl, pure_ok] at hr
    left
    refine ⟨?_, hr.2⟩
    rintro ⟨_, _, hp, hq⟩
    rw [Bool.and_eq_false_iff] at hpe
    rcases hpe with hpe | hpe
    · exact absurd (hpe.symm.trans hp) Bool.false_ne_true
    · exact absurd (hpe.symm.trans hq) Bool.false_ne_true
  | true =>
    obtain ⟨hp, hq⟩ := Bool.and_eq_true_iff.mp hpe
    right
    refine ⟨⟨hd, hi, hp, hq⟩, ?_⟩
    obtain ⟨h1, l1⟩ := h.drop (frameOf (m.pte addr))
    have hpde : (m.drop (frameOf (m.pte addr))).pde addr = m.pde addr := by
      rw [Machine.pde, Machine.pde, drop_ram, drop_cr3]
    have hframe := (@pageFrame_ok m m h.holds.env addr hlt _).mpr ⟨rfl, rfl⟩
    rw [if_pos hp] at hframe
    have hentry := (@getPageEntry_ok _ _ h1.holds.env addr hlt _).mpr ⟨rfl, rfl⟩
    rw [hpde, if_pos hp] at hentry
    have hdir := (@dirEntry_ok _ _ h1.holds.env _ (dirIndex_lt hlt) _).mpr ⟨rfl, rfl⟩
    rw [← Machine.pde] at hdir
    rw [hpe, onlyIf_pos rfl, Returns.bind_iff hframe, Returns.bind_iff ((freePageFrame_ok (u := ()) _ _).mpr rfl),
      freeAddressWith, Returns.bind_iff hentry, if_neg (entryAddr_ne addr), Returns.bind_iff hdir] at hr
    have hp' : present ((m.drop (frameOf (m.pte addr))).pde addr) = true := hpde ▸ hp
    cases hs : shared ((m.drop (frameOf (m.pte addr))).pde addr) with
    | false =>
      rw [hs, onlyIf_neg rfl, Returns.bind_iff (pure_ok.mpr ⟨rfl, rfl⟩), clearPresent_ok h1.holds.env hlt hp'] at hr
      exact ⟨_, L, .own hp' hs, hr⟩
    | true =>
      rw [hs, onlyIf_pos rfl, getPageTable_eq (dirIndex_lt hlt).le] at hr
      obtain ⟨_, m1, hc, hr⟩ := (bind_ok _ _ _).mp hr
      obtain ⟨K, k, new, m2, hK, hk, hnew, hnlt, hzero, hfresh, rfl⟩ := copyPageTable_cases h1 hT hd hp' hs (hA _) hc
      have ho : Opened alloc (m.drop (frameOf (m.pte addr))) L (dirIndex addr) 0#32
          ((m.drop (frameOf (m.pte addr))).unshared K k (window (dirIndex addr)) new 6#32)
          (L.use new (.table (entryOf s (dirIndex addr)))) := .copied K k new m2 hp' hs hK hk hnew hnlt hzero hfresh
      have hplain : Plain 0#32 := ⟨by decide, by decide, by decide⟩
      obtain ⟨h2, l2⟩ := ho.sound h1 hd hplain
      have hpre := (ho.private_ h1 hd hplain).1
      rw [← l2.same.cr3] at hpre
      exact ⟨_, _, ho, (clearPresent_ok h2.holds.env hlt hpre).mp hr⟩

theorem plain_zero : Plain 0#32 := ⟨by decide, by decide, by decide⟩

/-- What unmapping a page keeps. -/
theorem Opened.unmapped {m1 : Machine} {L1 : Uses s} (ho : Opened alloc m L (dirIndex addr) 0#32 m1 L1)
    (h : Sound m L T) (ha : addr < KERNEL_MEMORY) :
    Sound (m1.unmapped addr) L1 T ∧ Local m L (m1.unmapped addr) L1 := by
  have hd := dirIndex_user ha
  obtain ⟨h1, l1⟩ := ho.sound h hd plain_zero
  obtain ⟨hp, hs⟩ := ho.private_ h hd plain_zero
  rw [← l1.same.cr3] at hp hs
  obtain ⟨h2, l2⟩ := h1.setPte (i := pageTableIndex addr) (w := absent (m1.pte addr)) hd hp hs (by simp) (by simp) (by simp)
  exact ⟨h2, l1.trans l2⟩

theorem guards_freePage (hA : ∀ m, Hands alloc m) (ha : addr < KERNEL_MEMORY) :
    Guards Leaves (freePageWith (copyPageTable alloc (n + 1)) addr) := by
  intro m L _ m' h hr
  rcases freePage_cases h (by simp) ha hA hr with ⟨_, rfl⟩ | ⟨_, m1, L1, ho, rfl⟩
  · exact ⟨L, h, Std.Refl.refl _⟩
  · obtain ⟨h1, l1⟩ := h.drop (frameOf (m.pte addr))
    obtain ⟨h2, l2⟩ := ho.unmapped h1 ha
    exact ⟨L1, h2, l1.trans l2⟩

/-- A directory entry that is not present any more. -/
theorem Sound.clearPde (h : Sound m L T) (hd : d < 768) :
    Sound (m.setWord m.cr3 d (absent (m.ram m.cr3 d))) L T ∧
      Local m L (m.setWord m.cr3 d (absent (m.ram m.cr3 d))) L := by
  refine h.setPde hd (h.holds.setPde hd ⟨by simp, by simp, by simp, ?_, ?_, by simp, ?_⟩) (by simp)
  · rw [cowDir_absent, shared_absent]
    exact fun hs => h.holds.curSpace.cow hs d hd
  · rw [shared_absent, writable_absent]
    exact fun hs => h.holds.curSpace.protect hs d hd
  · intro hK
    obtain ⟨h1, h2⟩ := h.holds.single hK
    rw [shared_absent, h.holds.cr3, h1 _ h.holds.cur]
    exact h2 d hd

/-- Freeing the page table of directory entry `d`, a page of the window. -/
theorem freeTable_iff {copy : Nat → Kernel Unit} (h : Env m) (hself : shared (m.ram m.cr3 1023) = false) (hd : d < 768) :
    Returns (freePageWith copy (window d)) m u m' ↔ m' = if present (m.ram m.cr3 d) then
      (m.drop (frameOf (m.ram m.cr3 d))).setWord m.cr3 d (absent (m.ram m.cr3 d)) else m := by
  have hpde : m.pde (window d) = m.ram m.cr3 1023 := by rw [Machine.pde, dirIndex_window' (by omega)]
  have hpte : m.pte (window d) = m.ram m.cr3 d := h.pte_window (by omega)
  have hi : pageTableIndex (window d) = d := @pageTableIndex_window d 0 (by omega) (by decide)
  rw [freePage_ok h (window_lt (by omega)) (hpde ▸ hself), hpde, hpte, hi, h.self, h.self_frame]
  simp only [Bool.true_and]

theorem freeTable_ok {copy : Nat → Kernel Unit} (h : Holds m L) (hd : d < 768) :
    Returns (freePageWith copy (window d)) m u m' ↔ m' = if present (m.ram m.cr3 d) then
      (m.drop (frameOf (m.ram m.cr3 d))).setWord m.cr3 d (absent (m.ram m.cr3 d)) else m :=
  freeTable_iff h.env h.curDir.self_private hd

theorem guards_freeTable {copy : Nat → Kernel Unit} (hd : d < 768) : Guards Leaves (freePageWith copy (window d)) := by
  intro m L _ m' h hr
  rw [freeTable_ok h.holds hd] at hr
  by_cases hp : present (m.ram m.cr3 d) = true
  · rw [if_pos hp] at hr
    obtain ⟨h1, l1⟩ := h.drop (frameOf (m.ram m.cr3 d))
    obtain ⟨h2, l2⟩ := h1.clearPde hd
    rw [drop_ram, drop_cr3] at h2 l2
    rw [hr]
    exact ⟨L, h2, l1.trans l2⟩
  · rw [if_neg hp] at hr
    rw [hr]
    exact ⟨L, h, Std.Refl.refl _⟩

end Free

end Raampjes.Mm
