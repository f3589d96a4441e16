import Raampjes.Mm.Counts

/-!
# Unmapping a page

`free_page` in the user half, with the frames that `alloc_page_frame` takes. When the page table is shared, the copy of
it may go to the frame that was released just before.

- `copyPageTable_frame`: when the copy of a page table returns, and the state after it;
- `Freed`, `freePage_frame`: the same for `free_page`;
- `Freed.sound`, `Freed.unmapped`: what it keeps, and what it changes in the user half.
-/

namespace Raampjes.Mm

open Progs Refs Sched

variable {s : Bool}

section Copy

variable {m m' : Machine} {L : Uses s} {T : Finset Nat} {K k d n new addr : Nat} {flags : Word} {u : Unit}

/-- **The copy of a page table**, by a frame that is apart from those it goes through. -/
theorem copyPageTable_frame (h : Sound m L T) (hslack : Slack m L) (hd : d < 768) (hp : present (m.ram m.cr3 d) = true)
    (hs : shared (m.ram m.cr3 d) = true) (hap : ∀ f, f < 2 ^ 20 → m.bitmap f = 0 → Apart m L (window d) f) :
    (∀ u m', Returns (copyPageTable allocPageFrame (n + 1) (window d)) m u m' →
      ∃ K k new, L.ktab = some K ∧ scan (m.ram K) 1024 = some k ∧ new < 2 ^ 20 ∧ m.bitmap new = 0 ∧
        m' = m.unshared K k (window d) new 6#32) ∧
    ((∃ f, f < frames ∧ m.bitmap f = 0) → ∃ m', Returns (copyPageTable allocPageFrame (n + 1) (window d)) m () m') := by
  obtain ⟨K, k, hK, hk⟩ := hslack.room h hd hs
  have hx := Spot.window h.holds hd hp
  have hA : ∀ new m1, Returns allocPageFrame (m.setWord K k (mkEntry (frameOf (m.pte (window d))) (6#32 ||| 1#32))) new m1 →
      new < 2 ^ 20 ∧ m1 = (m.setWord K k (mkEntry (frameOf (m.pte (window d))) (6#32 ||| 1#32))).setCount new 1 ∧
        Apart m L (window d) new := by
    intro new m1 hr
    obtain ⟨hlt, hzero, hm⟩ := allocPageFrame_ok hr
    rw [frames_eq] at hlt
    exact ⟨hlt, hm, hap new hlt hzero⟩
  have hiff : ∀ u m', Returns (copyPageTable allocPageFrame (n + 1) (window d)) m u m' ↔ ∃ new m1,
      Returns allocPageFrame (m.setWord K k (mkEntry (frameOf (m.pte (window d))) (6#32 ||| 1#32))) new m1 ∧
        m' = m.unshared K k (window d) new 6#32 := by
    intro u m'
    rw [copyPageTable_succ]
    exact unshare_iff h.holds hK hk hx (by decide) hA
  constructor
  · intro u m' hr
    obtain ⟨new, m1, hnew, hm⟩ := (hiff u m').mp hr
    obtain ⟨hlt, hzero, _⟩ := allocPageFrame_ok hnew
    exact ⟨K, k, new, hK, hk, frames_eq ▸ hlt, hzero, hm⟩
  · intro hroom
    obtain ⟨new, hnew⟩ := @allocPageFrame_returns (m.setWord K k (mkEntry (frameOf (m.pte (window d))) (6#32 ||| 1#32))) hroom
    exact ⟨_, (hiff () _).mpr ⟨new, _, hnew, rfl⟩⟩

/-- What an address of the kernel half or of the window has is referred to elsewhere. -/
theorem elsewhere_of_walk (h : Holds m L) {a f : Nat} (haddr : addr < KERNEL_MEMORY) (ha : KERNEL_MEMORY ≤ a)
    (hlt : a < 2 ^ 32) (hw : walk m.ram m.cr3 a = some f) : Elsewhere m addr f := by
  refine ⟨m.current, m.cur, m.cr3, a, h.curTask, hlt, h.env.dir, hw, ?_⟩
  rintro ⟨_, he⟩
  rw [KERNEL_MEMORY] at *
  rw [PAGE_SIZE] at he
  omega

theorem elsewhere_of_window (h : Holds m L) (haddr : addr < KERNEL_MEMORY) (hd : d < 1024)
    (hp : present (m.ram m.cr3 d) = true) : Elsewhere m addr (frameOf (m.ram m.cr3 d)) := by
  refine elsewhere_of_walk h (a := window d) haddr ?_ (window_lt hd) (h.curDir.walk_window hd hp)
  rw [window, KERNEL_MEMORY]
  omega

/-- A frame that is referred to by one page of the user half at most can hold the copy of a page table. -/
theorem apart_of_not_elsewhere (h : Holds m L) (haddr : addr < KERNEL_MEMORY) (hd : d < 768)
    (hp : present (m.ram m.cr3 d) = true) (hnew : ¬ Elsewhere m addr new) : Apart m L (window d) new := by
  have hD := h.curDir
  have hpte : m.pte (window d) = m.ram m.cr3 d := h.env.pte_window (by omega)
  have hself := elsewhere_of_window h haddr (by decide) hD.self
  rw [hD.self_frame] at hself
  refine ⟨?_, ?_, ?_, ?_, ?_⟩
  · rintro rfl
    have := elsewhere_of_window h haddr (by decide) hD.low
    rw [hD.low_frame] at this
    exact hnew this
  · rintro K hK rfl
    obtain ⟨hpK, hfK, _⟩ := hD.ktab _ hK
    have := elsewhere_of_window h haddr (by decide) hpK
    rw [hfK] at this
    exact hnew this
  · rintro rfl
    exact hnew hself
  · rintro rfl
    rw [Machine.pde, dirIndex_window' (by omega), hD.self_frame] at hnew
    exact hnew hself
  · rintro rfl
    rw [hpte] at hnew
    exact hnew (elsewhere_of_window h haddr (by omega) hp)

/-- The words of the kernel's page table after a copy. -/
theorem unshared_ram_slot_of_ne {j : Nat} (hnew : K ≠ new) (hT : K ≠ frameOf (m.pde addr)) (hj : j ≠ k) :
    (m.unshared K k addr new flags).ram K j = m.ram K j := by
  rw [Machine.unshared, setWord_of_ne _ _ _ _ (Or.inr hj), drop_ram, setFrame_of_ne _ _ _ hnew,
    setWord_of_ne _ _ _ _ (Or.inl hT), setCount_ram, setWord_of_ne _ _ _ _ (Or.inr hj)]

/-- The kernel reaches its tables through the same entries. -/
theorem Env.congr (h : Env m) (hcr3 : m'.cr3 = m.cr3) (hcur : m'.cur = m.cur)
    (hself : m'.ram m.cr3 1023 = m.ram m.cr3 1023)
    (hdir : m'.ram m.cr3 (dirIndex m.cur.pageDirectory) = m.ram m.cr3 (dirIndex m.cur.pageDirectory))
    (htab : m'.ram (frameOf (m.pde m.cur.pageDirectory)) (pageTableIndex m.cur.pageDirectory) =
      m.ram (frameOf (m.pde m.cur.pageDirectory)) (pageTableIndex m.cur.pageDirectory)) : Env m' := by
  refine ⟨?_, ?_, ?_, ?_⟩
  · rw [hcr3, hself]
    exact h.self
  · rw [hcr3, hself]
    exact h.self_frame
  · rw [hcur]
    exact h.aligned
  · rw [hcr3, hcur, walk_congr hdir htab]
    exact h.dir

/-- The kernel reaches its tables after the copy of a page table. -/
theorem unshared_env (h : Holds m L) (hK : L.ktab = some K) (hk : scan (m.ram K) 1024 = some k) (hd : d < 768)
    (hnew : Apart m L (window d) new) : Env (m.unshared K k (window d) new flags) := by
  obtain ⟨_, hklt, habs⟩ := scan_some (le_refl _) hk
  have hKc : m.cr3 ≠ K := ne_of_role h.current_role (h.ktab_role K hK) (by simp)
  have hpde : frameOf (m.pde (window d)) = m.cr3 := by
    rw [Machine.pde, dirIndex_window' (by omega)]
    exact h.env.self_frame
  have hi : pageTableIndex (window d) = d := @pageTableIndex_window d 0 (by omega) (by decide)
  have hhigh : ∀ j, 768 ≤ j → (m.unshared K k (window d) new flags).ram m.cr3 j = m.ram m.cr3 j := by
    intro j hj
    refine unshared_ram_of_ne m hKc hnew.cr3.symm (Or.inr ?_)
    rw [hi]
    omega
  have hdirs : 768 ≤ dirIndex m.cur.pageDirectory := by
    rcases h.dir_path with ⟨hd, _⟩ | ⟨hd, _⟩ <;> omega
  refine h.env.congr ?_ ?_ (hhigh 1023 (by decide)) (hhigh _ hdirs) ?_
  · simp only [Machine.unshared, setWord_cr3, drop_cr3, setFrame_cr3, setCount_cr3]
  · simp only [Machine.unshared, setWord_cur, drop_cur, setFrame_cur, setCount_cur]
  · rcases h.dir_path with ⟨_, hf⟩ | ⟨_, hf⟩
    · rw [hf]
      refine unshared_ram_of_ne m (ne_of_role h.low_role (h.ktab_role K hK) (by simp)) hnew.low.symm (Or.inl ?_)
      rw [hpde]
      exact ne_of_role h.low_role h.current_role (by simp)
    · obtain rfl : frameOf (m.pde m.cur.pageDirectory) = K := Option.some.inj (hf.symm.trans hK)
      refine unshared_ram_slot_of_ne (hnew.ktab _ hK).symm (by rw [hpde]; exact hKc.symm) ?_
      -- the slot of the directory is in use
      intro he
      have hdir := h.env.dir
      rw [walk_pte] at hdir
      have hp : present (m.pte m.cur.pageDirectory) = true := by
        by_contra hno
        rw [Bool.not_eq_true] at hno
        rw [hno, Bool.and_false] at hdir
        cases hdir
      rw [Machine.pte, he, habs] at hp
      cases hp

end Copy

/-! ## Freeing a page -/

/-- A zero counter means that nothing refers to the frame, but for the page of `addr` whose reference was just dropped. -/
def Unreferenced (m : Machine) (addr : Nat) : Prop :=
  ∀ f, (m.drop (frameOf (m.pte addr))).bitmap f = 0 → ¬ Elsewhere m addr f

/-- What `free_page` does to a page of the user half. -/
inductive Freed (m : Machine) (L : Uses s) (addr : Nat) : Machine → Uses s → Prop
  | gone (hno : ¬ HasPage m.ram m.cr3 (dirIndex addr) (pageTableIndex addr)) : Freed m L addr m L
  | own (hpage : HasPage m.ram m.cr3 (dirIndex addr) (pageTableIndex addr)) (hs : shared (m.pde addr) = false) :
      Freed m L addr ((m.drop (frameOf (m.pte addr))).unmapped addr) L
  | copied (K k new : Nat) (hpage : HasPage m.ram m.cr3 (dirIndex addr) (pageTableIndex addr))
      (hs : shared (m.pde addr) = true) (hK : L.ktab = some K) (hk : scan (m.ram K) 1024 = some k) (hlt : new < 2 ^ 20)
      (hzero : (m.drop (frameOf (m.pte addr))).bitmap new = 0) (hfresh : ¬ Elsewhere m addr new) :
      Freed m L addr (((m.drop (frameOf (m.pte addr))).unshared K k (window (dirIndex addr)) new 6#32).unmapped addr)
        (L.use new (.table (entryOf s (dirIndex addr))))

section Free

variable {m m' : Machine} {L L' : Uses s} {T : Finset Nat} {K k d i n new addr f v : Nat} {flags : Word} {u : Unit}

@[simp] theorem elsewhere_drop : Elsewhere (m.drop f) addr v ↔ Elsewhere m addr v := by
  simp only [Elsewhere, drop_tasks, drop_ram, drop_cr3, drop_current]

@[simp] theorem drop_pde : (m.drop f).pde addr = m.pde addr := by rw [Machine.pde, Machine.pde, drop_ram, drop_cr3]

@[simp] theorem drop_pte : (m.drop f).pte addr = m.pte addr := by rw [Machine.pte, Machine.pte, drop_pde, drop_ram]

theorem hasPage_iff (ha : addr < KERNEL_MEMORY) : HasPage m.ram m.cr3 (dirIndex addr) (pageTableIndex addr) ↔
    (present (m.pde addr) && present (m.pte addr)) = true := by
  rw [Bool.and_eq_true]
  exact ⟨fun h => h.2.2, fun h => ⟨dirIndex_user ha, pageTableIndex_lt addr, h⟩⟩

theorem drop_zero (h : m.bitmap v = 0) : (m.drop f).bitmap v = 0 := by
  rcases drop_cases m f with ⟨hne, he⟩ | ⟨_, he⟩
  · rw [he, setCount_of_ne _ _ _ fun hv : v = f => hne (hv ▸ h)]
    exact h
  · rw [he]
    exact h

/-- The parts of `free_page` on a page that is there. -/
theorem freePage_parts {copy : Nat → Kernel Unit} (h : Holds m L) (ha : addr < KERNEL_MEMORY)
    (hpage : HasPage m.ram m.cr3 (dirIndex addr) (pageTableIndex addr)) :
    Returns (freePageWith copy addr) m u m' ↔
      Returns (do
        onlyIf (shared (m.pde addr)) (copy (window (dirIndex addr)))
        clearPresent (entryAddr addr)) (m.drop (frameOf (m.pte addr))) u m' := by
  have hlt := user_lt ha
  have hp : present (m.pde addr) = true := hpage.2.2.1
  have h0 := h.drop (frameOf (m.pte addr))
  have hframe := (@pageFrame_ok m m h.env addr hlt _).mpr ⟨rfl, rfl⟩
  rw [if_pos hp] at hframe
  have hentry := (@getPageEntry_ok _ _ h0.env addr hlt _).mpr ⟨rfl, rfl⟩
  rw [drop_pde, if_pos hp] at hentry
  have hdir := (@dirEntry_ok _ _ h0.env _ (dirIndex_lt hlt) _).mpr ⟨rfl, rfl⟩
  rw [← Machine.pde, drop_pde] at hdir
  rw [freePageWith, Returns.bind_iff ((pagePresent_ok h.env hlt).mpr ⟨rfl, rfl⟩), (hasPage_iff ha).mp hpage,
    onlyIf_pos rfl, Returns.bind_iff hframe, Returns.bind_iff ((freePageFrame_ok (u := ()) _ _).mpr rfl), freeAddressWith,
    Returns.bind_iff hentry, if_neg (entryAddr_ne addr), Returns.bind_iff hdir, getPageTable_eq (dirIndex_lt hlt).le]

/-- The page table of `addr` after its copy. -/
theorem copied_entries (h : Holds m L) (hK : L.ktab = some K) (hpage : HasPage m.ram m.cr3 (dirIndex addr) (pageTableIndex addr))
    (hlt : new < 2 ^ 20) (hnew : Apart m L (window (dirIndex addr)) new) :
    (m.unshared K k (window (dirIndex addr)) new 6#32).pde addr = mkEntry new 7#32 ∧
      (m.unshared K k (window (dirIndex addr)) new 6#32).pte addr = m.pte addr := by
  have hcr3 : (m.unshared K k (window (dirIndex addr)) new 6#32).cr3 = m.cr3 := by
    simp only [Machine.unshared, setWord_cr3, drop_cr3, setFrame_cr3, setCount_cr3]
  have hpde : (m.unshared K k (window (dirIndex addr)) new 6#32).pde addr = mkEntry new 7#32 := by
    rw [Machine.pde, hcr3]
    exact unshared_pde h hK hpage.1 hpage.2.2.1 hnew
  have hpte : m.pte (window (dirIndex addr)) = m.pde addr := h.env.pte_window (by have := hpage.1; omega)
  refine ⟨hpde, ?_⟩
  rw [Machine.pte, hpde, frameOf_mkEntry hlt (by decide), Machine.unshared,
    setWord_of_ne _ _ _ _ (Or.inl (hnew.ktab K hK)), drop_ram, setFrame_self, filled_lt (pageTableIndex_lt addr), hpte]
  rfl

/-- **Freeing a page of the user half.** -/
theorem freePage_frame (h : Sound m L T) (hslack : Slack m L) (ha : addr < KERNEL_MEMORY)
    (hU : HasPage m.ram m.cr3 (dirIndex addr) (pageTableIndex addr) → Unreferenced m addr) :
    (∀ u m', Returns (freePageWith (copyPageTable allocPageFrame (n + 1)) addr) m u m' → ∃ L', Freed m L addr m' L') ∧
    ((HasPage m.ram m.cr3 (dirIndex addr) (pageTableIndex addr) → shared (m.pde addr) = true →
        ∃ f, f < frames ∧ m.bitmap f = 0) →
      ∃ m', Returns (freePageWith (copyPageTable allocPageFrame (n + 1)) addr) m () m') := by
  have hlt := user_lt ha
  by_cases hpage : HasPage m.ram m.cr3 (dirIndex addr) (pageTableIndex addr)
  swap
  · have hiff : ∀ u m', Returns (freePageWith (copyPageTable allocPageFrame (n + 1)) addr) m u m' ↔ m' = m := by
      intro u m'
      rw [hasPage_iff ha, Bool.not_eq_true] at hpage
      rw [freePageWith, Returns.bind_iff ((pagePresent_ok h.holds.env hlt).mpr ⟨rfl, rfl⟩), hpage, onlyIf_neg rfl, pure_ok]
      simp
    constructor
    · intro u m' hr
      rw [(hiff u m').mp hr]
      exact ⟨L, .gone hpage⟩
    · exact fun _ => ⟨m, (hiff () m).mpr rfl⟩
  obtain ⟨h0, _⟩ := h.drop (frameOf (m.pte addr))
  have hp : present (m.pde addr) = true := hpage.2.2.1
  have hiff := fun u m' => @freePage_parts _ m m' L addr u (copyPageTable allocPageFrame (n + 1)) h.holds ha hpage
  cases hs : shared (m.pde addr) with
  | false =>
    have hclear : ∀ u m', Returns (freePageWith (copyPageTable allocPageFrame (n + 1)) addr) m u m' ↔
        m' = (m.drop (frameOf (m.pte addr))).unmapped addr := by
      intro u m'
      rw [hiff, hs, onlyIf_neg rfl, Returns.bind_iff (pure_ok.mpr ⟨rfl, rfl⟩),
        clearPresent_ok h0.holds.env hlt (by rw [drop_pde]; exact hp)]
      exact Iff.rfl
    constructor
    · intro u m' hr
      rw [(hclear u m').mp hr]
      exact ⟨L, .own hpage hs⟩
    · exact fun _ => ⟨_, (hclear () _).mpr rfl⟩
  | true =>
    have hpage0 : HasPage (m.drop (frameOf (m.pte addr))).ram (m.drop (frameOf (m.pte addr))).cr3 (dirIndex addr)
        (pageTableIndex addr) := by
      rw [drop_ram, drop_cr3]
      exact hpage
    have hap : ∀ f, f < 2 ^ 20 → (m.drop (frameOf (m.pte addr))).bitmap f = 0 →
        Apart (m.drop (frameOf (m.pte addr))) L (window (dirIndex addr)) f := by
      intro f _ hzero
      refine apart_of_not_elsewhere h0.holds ha hpage.1 hpage0.2.2.1 ?_
      rw [elsewhere_drop]
      exact hU hpage f hzero
    have hs0 : shared ((m.drop (frameOf (m.pte addr))).ram (m.drop (frameOf (m.pte addr))).cr3 (dirIndex addr)) = true := by
      rw [drop_ram, drop_cr3]
      exact hs
    obtain ⟨hcases, hret⟩ := @copyPageTable_frame _ _ L T _ n h0 (by rwa [Slack, drop_ram]) hpage.1 hpage0.2.2.1 hs0 hap
    have htail : ∀ u m' m1, Returns (copyPageTable allocPageFrame (n + 1) (window (dirIndex addr)))
        (m.drop (frameOf (m.pte addr))) () m1 → (Returns (clearPresent (entryAddr addr)) m1 u m' ↔ m' = m1.unmapped addr) := by
      intro u m' m1 h1
      obtain ⟨K, k, new, hK, hk, hnlt, hzero, rfl⟩ := hcases () m1 h1
      have hpde := (copied_entries (k := k) h0.holds hK hpage0 hnlt (hap new hnlt hzero)).1
      exact clearPresent_ok (unshared_env h0.holds hK hk hpage.1 (hap new hnlt hzero)) hlt (by rw [hpde]; simp)
    constructor
    · intro u m' hr
      rw [hiff, hs, onlyIf_pos rfl] at hr
      obtain ⟨_, m1, h1, hr⟩ := (bind_ok _ _ _).mp hr
      rw [htail u m' m1 h1] at hr
      obtain ⟨K, k, new, hK, hk, hnlt, hzero, rfl⟩ := hcases () m1 h1
      rw [drop_ram] at hk
      rw [hr]
      exact ⟨_, .copied K k new hpage hs hK hk hnlt hzero (hU hpage new hzero)⟩
    · intro hroom
      obtain ⟨f, hflt, hf⟩ := hroom hpage rfl
      obtain ⟨m1, h1⟩ := hret ⟨f, hflt, drop_zero hf⟩
      refine ⟨m1.unmapped addr, (hiff () _).mpr ?_⟩
      rw [hs, onlyIf_pos rfl, Returns.bind_iff h1, htail () _ m1 h1]

end Free

/-! ## What it keeps -/

/-- A new page table `new` under directory entry `d`: a copy of the old one without page `i`. -/
def Machine.remade (m : Machine) (K k d i new : Nat) : Machine :=
  let t := frameOf (m.ram m.cr3 d)
  ((m.setFrame new (filled 1024 (Function.update (m.ram t) i (absent (m.ram t i))) (m.ram new))).setWord m.cr3 d
    (mkEntry new 7#32)).setWord K k (absent (mkEntry t 7#32))

section Remade

variable {m m' : Machine} {L L' : Uses s} {T : Finset Nat} {K k d i n new addr f v : Nat} {flags w : Word} {u : Unit}

/-- Memory after a page of a shared table was freed. -/
theorem freed_ram (h : Holds m L) (hK : L.ktab = some K)
    (hpage : HasPage m.ram m.cr3 (dirIndex addr) (pageTableIndex addr)) (hlt : new < 2 ^ 20)
    (hnew : Apart m L (window (dirIndex addr)) new) :
    ((m.unshared K k (window (dirIndex addr)) new 6#32).unmapped addr).ram =
      (m.remade K k (dirIndex addr) (pageTableIndex addr) new).ram := by
  obtain ⟨hpde, hpte⟩ := copied_entries (k := k) h hK hpage hlt hnew
  have hd : dirIndex addr < 768 := hpage.1
  have hx := Spot.window h hd hpage.2.2.1
  have hwpde : frameOf (m.pde (window (dirIndex addr))) = m.cr3 := by
    rw [Machine.pde, dirIndex_window' (by omega)]
    exact h.env.self_frame
  have hwpte : m.pte (window (dirIndex addr)) = m.ram m.cr3 (dirIndex addr) := h.env.pte_window (by omega)
  have hi : pageTableIndex (window (dirIndex addr)) = dirIndex addr :=
    @pageTableIndex_window (dirIndex addr) 0 (by omega) (by decide)
  have hKc : K ≠ m.cr3 := ne_of_role (h.ktab_role K hK) h.current_role (by simp)
  have hnK := hnew.ktab K hK
  have hnc := hnew.cr3
  rw [Machine.unmapped, hpde, hpte, frameOf_mkEntry hlt (by decide), unshared_eq hK hx hnew, hwpde, hwpte, hi,
    Machine.remade]
  simp only [Machine.setWord, drop_ram, Machine.setFrame, Machine.setCount]
  funext g
  by_cases hgK : g = K
  · subst hgK
    simp [hnK.symm, hKc]
  · by_cases hgn : g = new
    · subst hgn
      simp only [ne_eq, hgK, not_false_eq_true, Function.update_of_ne, Function.update_self, hnc]
      funext j
      have hi' := pageTableIndex_lt addr
      by_cases hj : j = pageTableIndex addr
      · rw [hj, Function.update_self, filled_lt hi', Function.update_self]
        rfl
      · rw [Function.update_of_ne hj]
        by_cases hj' : j < 1024
        · rw [filled_lt hj', filled_lt hj', Function.update_of_ne hj]
        · rw [filled, filled, if_neg hj', if_neg hj']
    · by_cases hgc : g = m.cr3
      · subst hgc
        simp [hgK, hgn]
      · simp [hgK, hgn, hgc]

/-- A slot that is not present may change its other bits. -/
theorem Sound.blankSlot (h : Sound m L T) (hK : L.ktab = some K) (hk : k < 1024) (habs : present (m.ram K k) = false)
    (w : Word) : Sound (m.setWord K k (absent w)) L T ∧ Local m L (m.setWord K k (absent w)) L := by
  have hrole := h.holds.ktab_role K hK
  have hfar : ∀ {g r}, L.role g = r → r ≠ .kernelTable → ∀ j, (m.setWord K k (absent w)).ram g j = m.ram g j :=
    fun hg hr j => setWord_of_ne _ _ _ _ (Or.inl (ne_of_role hg hrole hr))
  refine ⟨⟨h.holds.setSlot hK hk _ fun p t ht => h.holds.slot_free hK hk habs ht, h.tidy.congr rfl rfl rfl ?_ ?_ ?_⟩,
    ⟨SameTasks.of_tasks rfl rfl rfl, rfl, rfl, rfl, rfl, fun d _ _ => hfar h.holds.current_role (by simp) d, ?_⟩⟩
  · exact fun i _ => hfar h.holds.low_role (by simp) i
  · intro K' j hK' _ hp
    obtain rfl : K' = K := Option.some.inj (hK'.symm.trans hK)
    by_cases hj : j = k
    · subst hj
      rw [setWord_self, present_absent] at hp
      cases hp
    · exact setWord_of_ne _ _ _ _ (Or.inr hj)
  · intro hnone
    rw [hK] at hnone
    cases hnone
  · exact fun f hf => funext fun j => setWord_of_ne _ _ _ _ (Or.inl (hf.ne_ktab h.holds hK))

/-- Without its directory entry the running task has no page under it. -/
theorem reaches_clear (h : Sound m L T) (ha : addr < KERNEL_MEMORY)
    (hr : Reaches (m.setWord m.cr3 (dirIndex addr) (absent (m.ram m.cr3 (dirIndex addr)))) f) : Elsewhere m addr f := by
  have hd := dirIndex_user ha
  obtain ⟨hv, lv⟩ := h.clearPde hd
  obtain ⟨p, t, D, a, ht, hlt, hD, hw⟩ := hr
  have ht0 : m.tasks p = some t := ht
  have hdir := (h.holds.task p t ht0).walk_dir h.holds h.holds.curDir
  rw [(hv.holds.task p t ht).walk_dir hv.holds hv.holds.curDir, Option.some.injEq] at hD
  subst hD
  refine ⟨p, t, L.dir p, a, ht0, hlt, hdir, walk_mono ?_ hw, ?_⟩
  · intro g j hp
    by_cases hat : g = m.cr3 ∧ j = dirIndex addr
    · obtain ⟨rfl, rfl⟩ := hat
      rw [setWord_self, present_absent] at hp
      cases hp
    · rw [setWord_of_ne _ _ _ _ (not_and_or.mp hat)]
  · rintro ⟨rfl, he⟩
    have hda : dirIndex a = dirIndex addr := (same_page_iff.mp he).1
    have hp := (walk_eq_some.mp hw).1
    rw [hda, ← h.holds.cr3, setWord_self, present_absent] at hp
    cases hp

/-- The copy of the table of `addr`, without the page, before the directory names it. -/
def Machine.staged (m : Machine) (addr new : Nat) : Machine :=
  (m.setWord m.cr3 (dirIndex addr) (absent (m.ram m.cr3 (dirIndex addr)))).setFrame new
    (filled 1024 (Function.update (m.ram (frameOf (m.ram m.cr3 (dirIndex addr)))) (pageTableIndex addr)
      (absent (m.ram (frameOf (m.ram m.cr3 (dirIndex addr))) (pageTableIndex addr)))) (m.ram new))

theorem staged_copy {j : Nat} (hj : j < 1024) : (m.staged addr new).ram new j =
    if j = pageTableIndex addr then absent (m.ram (frameOf (m.ram m.cr3 (dirIndex addr))) j)
    else m.ram (frameOf (m.ram m.cr3 (dirIndex addr))) j := by
  rw [Machine.staged, setFrame_self, filled_lt hj]
  by_cases hji : j = pageTableIndex addr
  · rw [if_pos hji, hji, Function.update_self]
  · rw [if_neg hji, Function.update_of_ne hji]

theorem staged_of_ne {g j : Nat} (hg : g ≠ new) (hgj : g ≠ m.cr3 ∨ j ≠ dirIndex addr) :
    (m.staged addr new).ram g j = m.ram g j := by
  rw [Machine.staged, setFrame_of_ne _ _ _ hg, setWord_of_ne _ _ _ _ hgj]

/-- Without the directory entry nothing reaches the frame. -/
theorem spare_cleared (h : Sound m L T) (ha : addr < KERNEL_MEMORY) (hnew : ¬ Elsewhere m addr new) :
    Spare (m.setWord m.cr3 (dirIndex addr) (absent (m.ram m.cr3 (dirIndex addr)))) L new :=
  (h.clearPde (dirIndex_user ha)).1.holds.spare_of_unreached fun hr => hnew (reaches_clear h ha hr)

theorem Sound.staged (h : Sound m L T) (ha : addr < KERNEL_MEMORY) (hnew : ¬ Elsewhere m addr new) :
    Sound (m.staged addr new) (L.use new (.table (entryOf s (dirIndex addr)))) T ∧
      Local m L (m.staged addr new) (L.use new (.table (entryOf s (dirIndex addr)))) := by
  obtain ⟨hv, lv⟩ := h.clearPde (dirIndex_user ha)
  have hspare := spare_cleared h ha hnew
  obtain ⟨hu, lu⟩ := hv.use hspare (.table (entryOf s (dirIndex addr)))
  obtain ⟨hf, lf⟩ := hu.setFrame ⟨hspare.noTable.use, hspare.page, hspare.own⟩ _
  exact ⟨hf, (lv.trans lu).trans lf⟩

/-- The pages of the copy are those of the old table, but for the one at `addr`. -/
theorem staged_page (h : Sound m L T) (ha : addr < KERNEL_MEMORY) (hp : present (m.pde addr) = true)
    (hnew : ¬ Elsewhere m addr new) {j : Nat} (hj : j < 1024) (hpj : present ((m.staged addr new).ram new j) = true) :
    HasPage m.ram m.cr3 (dirIndex addr) j ∧
      (m.staged addr new).ram new j = m.ram (frameOf (m.ram m.cr3 (dirIndex addr))) j ∧
      pageOf m.ram m.cr3 (dirIndex addr) j ≠ new := by
  have hd := dirIndex_user ha
  rw [staged_copy hj] at hpj ⊢
  by_cases hji : j = pageTableIndex addr
  · rw [if_pos hji, present_absent] at hpj
    cases hpj
  · rw [if_neg hji] at hpj ⊢
    have hpage : HasPage m.ram m.cr3 (dirIndex addr) j := ⟨hd, hj, hp, hpj⟩
    refine ⟨hpage, rfl, fun he => hnew ?_⟩
    refine ⟨m.current, m.cur, m.cr3, pageAddr (dirIndex addr) j, h.holds.curTask, pageAddr_lt (by omega) hj,
      h.holds.env.dir, he ▸ walk_page hpage, ?_⟩
    rintro ⟨_, hsame⟩
    have hsame := (same_page_iff.mp hsame).2
    rw [pageTableIndex_page hj] at hsame
    exact hji hsame

/-- The pages under the other entries stay. -/
theorem staged_far (h : Sound m L T) (ha : addr < KERNEL_MEMORY) (hp : present (m.pde addr) = true)
    (hnew : ¬ Elsewhere m addr new) {d i : Nat} (hne : d ≠ dirIndex addr)
    (hpage : HasPage (m.staged addr new).ram m.cr3 d i) :
    HasPage m.ram m.cr3 d i ∧ pageOf (m.staged addr new).ram m.cr3 d i = pageOf m.ram m.cr3 d i := by
  obtain ⟨hd, hi, hp', hq⟩ := hpage
  have hap := apart_of_not_elsewhere h.holds ha (dirIndex_user ha) hp hnew
  have hword : (m.staged addr new).ram m.cr3 d = m.ram m.cr3 d := staged_of_ne hap.cr3.symm (Or.inr hne)
  rw [pageOf, pageOf]
  rw [hword] at hp' hq ⊢
  have hfresh : frameOf (m.ram m.cr3 d) ≠ new := by
    rintro rfl
    exact hnew (elsewhere_of_window h.holds ha (by omega) hp')
  have hdir : frameOf (m.ram m.cr3 d) ≠ m.cr3 :=
    ne_of_role (h.holds.curSpace.table d hd hp') h.holds.current_role (by simp)
  rw [staged_of_ne hfresh (Or.inl hdir)] at hq ⊢
  exact ⟨⟨hd, hi, hp', hq⟩, rfl⟩

/-- The directory may name the copy. -/
theorem staged_named (h : Sound m L T) (ha : addr < KERNEL_MEMORY)
    (hp : present (m.pde addr) = true) (hlt : new < 2 ^ 20) (hnew : ¬ Elsewhere m addr new) :
    Holds ((m.staged addr new).setWord m.cr3 (dirIndex addr) (mkEntry new 7#32))
      (L.use new (.table (entryOf s (dirIndex addr)))) := by
  have hd := dirIndex_user ha
  have hspare := spare_cleared h ha hnew
  have hw : frameOf (mkEntry new 7#32) = new := frameOf_mkEntry hlt (by decide)
  refine (h.staged ha hnew).1.holds.setPde hd ⟨?_, ?_, ?_, ?_, ?_, ?_, ?_⟩
  · intro _
    rw [hw]
    exact use_role_self ..
  · -- no other entry names it
    intro _ q u d' hu' hd' _ hpq he
    have hqn : L.dir q ≠ new := (hspare.noTable.dir q u hu').symm
    have hdir : (L.use new (.table (entryOf s (dirIndex addr)))).dir q = L.dir q := rfl
    rw [hdir, Machine.staged, setFrame_of_ne _ _ _ hqn] at hpq he
    rw [hw] at he
    exact hspare.noTable.table q u hu' d' hd' hpq he.symm
  · intro _ j hj hpj
    rw [hw] at hpj ⊢
    obtain ⟨hpage, heq, hne⟩ := staged_page h ha hp hnew hj hpj
    rw [heq]
    refine ⟨(use_role_of_ne L _ hne).trans (h.holds.curSpace.page _ _ hpage), fun hst => ⟨?_, ?_⟩⟩
    · intro d' i' hd' hpage' he
      obtain ⟨hold, hof⟩ := staged_far h ha hp hnew hd' hpage'
      exact hd' (h.holds.curSpace.inj hst d' i' _ j hold hpage (hof.symm.trans he)).1
    · intro j' hj' hpj' he
      obtain ⟨hpage', heq', _⟩ := staged_page h ha hp hnew hj' hpj'
      rw [heq'] at he
      exact (h.holds.curSpace.inj hst _ j _ j' hpage hpage' he).2
  · simp
  · simp
  · simp
  · simp

/-- With the old table at the slot, which is blanked, this is all that the copy changes. -/
theorem remade_eq (hKc : K ≠ m.cr3) (hKn : K ≠ new) (hcn : m.cr3 ≠ new) :
    ((m.staged addr new).setWord m.cr3 (dirIndex addr) (mkEntry new 7#32)).setWord K k
      (absent (mkEntry (frameOf (m.ram m.cr3 (dirIndex addr))) 7#32)) =
      m.remade K k (dirIndex addr) (pageTableIndex addr) new := by
  rw [Machine.remade, Machine.staged]
  simp only [Machine.setWord, Machine.setFrame]
  congr 1
  funext x
  by_cases hxK : x = K
  · subst hxK
    simp [hKc, hKn]
  · by_cases hxc : x = m.cr3
    · subst hxc
      simp [hxK, hcn]
    · by_cases hxn : x = new
      · subst hxn
        simp [hxK, hxc]
      · simp [hxK, hxc, hxn]

/-- **A new page table in the place of the old one**, for the frame of its last page too. -/
theorem Sound.remade (h : Sound m L T) (hK : L.ktab = some K) (hk : scan (m.ram K) 1024 = some k)
    (ha : addr < KERNEL_MEMORY) (hp : present (m.pde addr) = true) (hlt : new < 2 ^ 20) (hnew : ¬ Elsewhere m addr new) :
    Sound (m.remade K k (dirIndex addr) (pageTableIndex addr) new) (L.use new (.table (entryOf s (dirIndex addr)))) T ∧
      Local m L (m.remade K k (dirIndex addr) (pageTableIndex addr) new) (L.use new (.table (entryOf s (dirIndex addr)))) := by
  obtain ⟨_, hklt, habs⟩ := scan_some (le_refl _) hk
  have hd := dirIndex_user ha
  have hap := apart_of_not_elsewhere h.holds ha hd hp hnew
  obtain ⟨hf, lf⟩ := h.staged ha hnew
  obtain ⟨hs, ls⟩ := hf.setPde hd (staged_named h ha hp hlt hnew) (by
    intro hnone
    have hktab : (L.use new (.table (entryOf s (dirIndex addr)))).ktab = L.ktab := rfl
    rw [hktab, hK] at hnone
    cases hnone)
  have hKc : K ≠ m.cr3 := ne_of_role (h.holds.ktab_role K hK) h.holds.current_role (by simp)
  have hKn : K ≠ new := (hap.ktab K hK).symm
  have hslot : present (((m.staged addr new).setWord m.cr3 (dirIndex addr) (mkEntry new 7#32)).ram K k) = false := by
    rw [setWord_of_ne _ _ _ _ (Or.inl hKc), staged_of_ne hKn (Or.inl hKc)]
    exact habs
  obtain ⟨hb, lb⟩ := hs.blankSlot hK hklt hslot (mkEntry (frameOf (m.ram m.cr3 (dirIndex addr))) 7#32)
  rw [← remade_eq hKc hKn hap.cr3.symm]
  exact ⟨hb, lf.trans (ls.trans lb)⟩

theorem Freed.sound (hF : Freed m L addr m' L') (h : Sound m L T) (ha : addr < KERNEL_MEMORY) :
    Sound m' L' T ∧ Local m L m' L' := by
  obtain ⟨h0, l0⟩ := h.drop (frameOf (m.pte addr))
  have hcr3 : (m.drop (frameOf (m.pte addr))).cr3 = m.cr3 := drop_cr3 ..
  have hram : (m.drop (frameOf (m.pte addr))).ram = m.ram := drop_ram ..
  cases hF with
  | gone hno => exact ⟨h, Local.refl m L⟩
  | own hpage hs =>
    have hp : present ((m.drop (frameOf (m.pte addr))).ram (m.drop (frameOf (m.pte addr))).cr3 (dirIndex addr)) = true := by
      rw [hram, hcr3]
      exact hpage.2.2.1
    have hs0 : shared ((m.drop (frameOf (m.pte addr))).ram (m.drop (frameOf (m.pte addr))).cr3 (dirIndex addr)) = false := by
      rw [hram, hcr3]
      exact hs
    obtain ⟨h1, l1⟩ := h0.setPte (i := pageTableIndex addr)
      (w := absent ((m.drop (frameOf (m.pte addr))).pte addr)) hpage.1 hp hs0 (by simp) (by simp) (by simp)
    exact ⟨h1, l0.trans l1⟩
  | copied K k new hpage hs hK hk hlt hzero hfresh =>
    have hfresh0 : ¬ Elsewhere (m.drop (frameOf (m.pte addr))) addr new := by
      rw [elsewhere_drop]
      exact hfresh
    have hp0 : present ((m.drop (frameOf (m.pte addr))).pde addr) = true := by
      rw [drop_pde]
      exact hpage.2.2.1
    have hpage0 : HasPage (m.drop (frameOf (m.pte addr))).ram (m.drop (frameOf (m.pte addr))).cr3 (dirIndex addr)
        (pageTableIndex addr) := by
      rw [hram, hcr3]
      exact hpage
    obtain ⟨h1, l1⟩ := h0.remade hK (by rw [hram]; exact hk) ha hp0 hlt hfresh0
    have heq := freed_ram (k := k) h0.holds hK hpage0 hlt (apart_of_not_elsewhere h0.holds ha hpage.1 hp0 hfresh0)
    have hsame : SameTasks ((m.drop (frameOf (m.pte addr))).remade K k (dirIndex addr) (pageTableIndex addr) new)
        (((m.drop (frameOf (m.pte addr))).unshared K k (window (dirIndex addr)) new 6#32).unmapped addr) := by
      apply SameTasks.of_tasks
      · simp only [Machine.unmapped, Machine.unshared, Machine.remade, setWord_tasks, drop_tasks, setFrame_tasks,
          setCount_tasks]
      · simp only [Machine.unmapped, Machine.unshared, Machine.remade, setWord_current, drop_current, setFrame_current,
          setCount_current]
      · simp only [Machine.unmapped, Machine.unshared, Machine.remade, setWord_cr3, drop_cr3, setFrame_cr3, setCount_cr3]
    obtain ⟨h2, l2⟩ := h1.retask hsame heq
    exact ⟨h2, (l0.trans l1).trans l2⟩

/-! ## What it changes -/

/-- The user half without the page of `addr`. -/
structure Unmapped (m m' : Machine) (addr : Nat) : Prop where
  dir : ∀ d, d < 768 → present (m'.ram m.cr3 d) = present (m.ram m.cr3 d)
  rest : ∀ d, d < 768 → d ≠ dirIndex addr → m'.ram m.cr3 d = m.ram m.cr3 d
  entry : ∀ d i, d < 768 → i < 1024 → present (m.ram m.cr3 d) = true → ¬ (d = dirIndex addr ∧ i = pageTableIndex addr) →
    pteAt m'.ram m.cr3 d i = pteAt m.ram m.cr3 d i
  gone : present (m.pde addr) = true → present (pteAt m'.ram m.cr3 (dirIndex addr) (pageTableIndex addr)) = false

theorem Unmapped.walk_eq (hU : Unmapped m m' addr) {a : Nat} (ha : a < KERNEL_MEMORY) :
    walk m'.ram m.cr3 a = if a / PAGE_SIZE = addr / PAGE_SIZE then none else walk m.ram m.cr3 a := by
  have hd := dirIndex_user ha
  have hi := pageTableIndex_lt a
  have hdir := hU.dir _ hd
  by_cases hsame : a / PAGE_SIZE = addr / PAGE_SIZE
  · rw [if_pos hsame]
    obtain ⟨h1, h2⟩ := same_page_iff.mp hsame
    by_contra hne
    obtain ⟨f, hf⟩ := Option.ne_none_iff_exists'.mp hne
    obtain ⟨hp, hq, _⟩ := walk_eq_some.mp hf
    rw [hdir, h1] at hp
    have hgone := hU.gone hp
    rw [h1, h2] at hq
    rw [pteAt, hq] at hgone
    cases hgone
  · rw [if_neg hsame]
    rw [same_page_iff] at hsame
    cases hp : present (m.ram m.cr3 (dirIndex a)) with
    | false => simp only [walk, hdir, hp, Bool.false_and, Bool.false_eq_true, if_false]
    | true =>
      have hentry := hU.entry _ _ hd hi hp hsame
      rw [pteAt, pteAt] at hentry
      simp only [walk, hdir, hp, hentry]

/-- The words of a copy without one page. -/
theorem remade_ram (hKc : m.cr3 ≠ K) (hnK : new ≠ K) (hnc : new ≠ m.cr3) :
    (m.remade K k d i new).ram m.cr3 = Function.update (m.ram m.cr3) d (mkEntry new 7#32) ∧
    (∀ j, j < 1024 → (m.remade K k d i new).ram new j =
      if j = i then absent (m.ram (frameOf (m.ram m.cr3 d)) j) else m.ram (frameOf (m.ram m.cr3 d)) j) ∧
    ∀ g, g ≠ m.cr3 → g ≠ new → ∀ j, (g ≠ K ∨ j ≠ k) → (m.remade K k d i new).ram g j = m.ram g j := by
  refine ⟨?_, ?_, ?_⟩
  · funext j
    rw [Machine.remade, setWord_of_ne _ _ _ _ (Or.inl hKc)]
    simp only [Machine.setWord, Machine.setFrame, Function.update_self, Function.update_of_ne hnc.symm]
  · intro j hj
    rw [Machine.remade, setWord_of_ne _ _ _ _ (Or.inl hnK), setWord_of_ne _ _ _ _ (Or.inl hnc), setFrame_self, filled_lt hj]
    by_cases hji : j = i
    · rw [if_pos hji, hji, Function.update_self]
    · rw [if_neg hji, Function.update_of_ne hji]
  · intro g hgc hgn j hgK
    rw [Machine.remade, setWord_of_ne _ _ _ _ hgK, setWord_of_ne _ _ _ _ (Or.inl hgc), setFrame_of_ne _ _ _ hgn]

theorem drop_remade_ram : ((m.drop f).remade K k d i new).ram = (m.remade K k d i new).ram := by
  simp only [Machine.remade, Machine.setWord, Machine.setFrame, drop_ram, drop_cr3]

/-- Memory after the two ways to free a page that is there. -/
theorem own_ram : ((m.drop f).unmapped addr).ram =
    (m.setWord (frameOf (m.pde addr)) (pageTableIndex addr) (absent (m.pte addr))).ram := by
  simp only [Machine.unmapped, drop_pde, drop_pte, Machine.setWord, drop_ram]

theorem copied_ram (h : Sound m L T) (ha : addr < KERNEL_MEMORY) (hK : L.ktab = some K)
    (hpage : HasPage m.ram m.cr3 (dirIndex addr) (pageTableIndex addr)) (hlt : new < 2 ^ 20)
    (hnew : ¬ Elsewhere m addr new) :
    (((m.drop f).unshared K k (window (dirIndex addr)) new 6#32).unmapped addr).ram =
      (m.remade K k (dirIndex addr) (pageTableIndex addr) new).ram := by
  have h0 := h.holds.drop f
  have hpage0 : HasPage (m.drop f).ram (m.drop f).cr3 (dirIndex addr) (pageTableIndex addr) := by
    rw [drop_ram, drop_cr3]
    exact hpage
  rw [freed_ram h0 hK hpage0 hlt (apart_of_not_elsewhere h0 ha hpage.1 hpage0.2.2.1 (by rwa [elsewhere_drop])),
    drop_remade_ram]

/-- The words after a page of a shared table was freed: the directory, the new table, and the rest. -/
theorem copied_words (h : Sound m L T) (ha : addr < KERNEL_MEMORY) (hK : L.ktab = some K)
    (hpage : HasPage m.ram m.cr3 (dirIndex addr) (pageTableIndex addr)) (hlt : new < 2 ^ 20)
    (hnew : ¬ Elsewhere m addr new) {m2 : Machine}
    (hm : m2 = ((m.drop f).unshared K k (window (dirIndex addr)) new 6#32).unmapped addr) :
    m2.ram m.cr3 = Function.update (m.ram m.cr3) (dirIndex addr) (mkEntry new 7#32) ∧
    (∀ j, j < 1024 → m2.ram new j = if j = pageTableIndex addr then absent (m.ram (frameOf (m.ram m.cr3 (dirIndex addr))) j)
      else m.ram (frameOf (m.ram m.cr3 (dirIndex addr))) j) ∧
    ∀ g, g ≠ m.cr3 → g ≠ new → ∀ j, (g ≠ K ∨ j ≠ k) → m2.ram g j = m.ram g j := by
  have hap := apart_of_not_elsewhere h.holds ha hpage.1 hpage.2.2.1 hnew
  have hKc : m.cr3 ≠ K := ne_of_role h.holds.current_role (h.holds.ktab_role K hK) (by simp)
  rw [hm, copied_ram h ha hK hpage hlt hnew]
  exact remade_ram hKc (hap.ktab K hK) hap.cr3

theorem Freed.unmapped (hF : Freed m L addr m' L') (h : Sound m L T) (ha : addr < KERNEL_MEMORY) : Unmapped m m' addr := by
  have hc := h.holds.current_role
  have htab := h.holds.curSpace.table
  cases hF with
  | gone hno =>
    refine ⟨fun _ _ => rfl, fun _ _ _ => rfl, fun _ _ _ _ _ _ => rfl, fun hp => ?_⟩
    by_contra hq
    exact hno ⟨dirIndex_user ha, pageTableIndex_lt addr, hp, Bool.of_not_eq_false hq⟩
  | own hpage hs =>
    have hT := htab _ hpage.1 hpage.2.2.1
    have hdir : ∀ d, ((m.drop (frameOf (m.pte addr))).unmapped addr).ram m.cr3 d = m.ram m.cr3 d := by
      intro d
      rw [own_ram]
      exact setWord_of_ne _ _ _ _ (Or.inl (ne_of_role hc hT (by simp)))
    refine ⟨fun d _ => by rw [hdir], fun d _ _ => hdir d, ?_, fun _ => ?_⟩
    · intro d i hd _ hp hne
      rw [pteAt, pteAt, hdir, own_ram]
      apply setWord_of_ne
      by_contra hat
      rw [not_or, not_not, not_not] at hat
      exact hne ⟨h.holds.table_inj hd hpage.1 hp hpage.2.2.1 hat.1 hs, hat.2⟩
    · rw [pteAt, hdir, own_ram]
      show present ((m.setWord (frameOf (m.pde addr)) _ _).ram (frameOf (m.pde addr)) _) = false
      rw [setWord_self, present_absent]
  | copied K k new hpage hs hK hk hlt hzero hfresh =>
    obtain ⟨m2, hm2⟩ : ∃ m2, m2 = ((m.drop (frameOf (m.pte addr))).unshared K k (window (dirIndex addr)) new
      6#32).unmapped addr := ⟨_, rfl⟩
    obtain ⟨h1, h2, h3⟩ := copied_words h ha hK hpage hlt hfresh hm2
    have hf : frameOf (mkEntry new 7#32) = new := frameOf_mkEntry hlt (by decide)
    have hself : m2.ram m.cr3 (dirIndex addr) = mkEntry new 7#32 := by rw [h1, Function.update_self]
    have hrest : ∀ d, d ≠ dirIndex addr → m2.ram m.cr3 d = m.ram m.cr3 d := by
      intro d hd
      rw [h1, Function.update_of_ne hd]
    rw [← hm2]
    refine ⟨?_, ?_, ?_, fun _ => ?_⟩
    · intro d _
      by_cases hd : d = dirIndex addr
      · rw [hd, hself, hpage.2.2.1]
        simp
      · rw [hrest d hd]
    · exact fun d _ hd => hrest d hd
    · intro d i hd hi hp hne
      rw [pteAt, pteAt]
      by_cases hat : d = dirIndex addr
      · subst hat
        have hi' : i ≠ pageTableIndex addr := fun he => hne ⟨rfl, he⟩
        rw [hself, hf, h2 i hi, if_neg hi']
      · have hrole := htab d hd hp
        have hTn : frameOf (m.ram m.cr3 d) ≠ new := by
          rintro rfl
          exact hfresh (elsewhere_of_window h.holds ha (by omega) hp)
        rw [hrest d hat]
        exact h3 _ (ne_of_role hrole hc (by simp)) hTn i
          (Or.inl (ne_of_role hrole (h.holds.ktab_role K hK) (by simp)))
    · rw [pteAt, hself, hf, h2 _ (pageTableIndex_lt addr), if_pos rfl, present_absent]

theorem Freed.kernelKept (hF : Freed m L addr m' L') (h : Sound m L T) (ha : addr < KERNEL_MEMORY) : KernelKept m L m' := by
  have hlow := h.holds.low_role
  cases hF with
  | gone hno => exact ⟨fun _ _ => rfl, fun _ _ _ _ _ => rfl⟩
  | own hpage hs =>
    have hT := h.holds.curSpace.table _ hpage.1 hpage.2.2.1
    rw [show m.ram m.cr3 (dirIndex addr) = m.pde addr from rfl] at hT
    constructor
    · intro i _
      rw [own_ram]
      exact setWord_of_ne _ _ _ _ (Or.inl (ne_of_role hlow hT (by simp)))
    · intro K j hK _ _
      rw [own_ram]
      exact setWord_of_ne _ _ _ _ (Or.inl (ne_of_role (h.holds.ktab_role K hK) hT (by simp)))
  | copied K k new hpage hs hK hk hlt hzero hfresh =>
    have hap := apart_of_not_elsewhere h.holds ha hpage.1 hpage.2.2.1 hfresh
    have hKc : m.cr3 ≠ K := ne_of_role h.holds.current_role (h.holds.ktab_role K hK) (by simp)
    obtain ⟨_, _, h3⟩ := copied_words h ha hK hpage hlt hfresh (k := k) (f := frameOf (m.pte addr)) rfl
    constructor
    · intro i _
      exact h3 _ (ne_of_role hlow h.holds.current_role (by simp)) hap.low.symm i
        (Or.inl (ne_of_role hlow (h.holds.ktab_role K hK) (by simp)))
    · intro K' j hK' _ hp
      obtain rfl : K' = K := Option.some.inj (hK'.symm.trans hK)
      refine h3 _ hKc.symm (hap.ktab K' hK).symm j (Or.inr ?_)
      -- the slot of the copy is released
      rintro rfl
      rw [copied_ram h ha hK hpage hlt hfresh, Machine.remade, setWord_self, present_absent] at hp
      cases hp

end Remade

/-! ## The counters -/

section Counters

variable {m m' : Machine} {L L' : Uses s} {T : Finset Nat} {K k d i new addr f g : Nat} {flags w : Word}

theorem drop_toNat (hg : m.bitmap g ≠ 0) :
    ((m.drop g).bitmap f).toNat + (if f = g then 1 else 0) = (m.bitmap f).toNat := by
  rw [Machine.drop, if_pos hg]
  by_cases hf : f = g
  · subst hf
    have hpos := toNat_ne_zero.mpr hg
    have hle : (1 : UInt8) ≤ m.bitmap f := UInt8.le_iff_toNat_le.mpr (Nat.one_le_iff_ne_zero.mpr hpos)
    rw [setCount_self, UInt8.toNat_sub_of_le _ _ hle, if_pos rfl]
    show (m.bitmap f).toNat - 1 + 1 = _
    omega
  · rw [setCount_of_ne _ _ _ hf, if_neg hf, Nat.add_zero]

theorem drop_bitmap_congr (h : m'.bitmap = m.bitmap) : (m'.drop g).bitmap = (m.drop g).bitmap := by
  rw [Machine.drop, Machine.drop, h]
  by_cases hg : m.bitmap g = 0
  · rw [if_neg (not_not.mpr hg), if_neg (not_not.mpr hg), h]
  · rw [if_pos hg, if_pos hg]
    show Function.update m'.bitmap g _ = Function.update m.bitmap g _
    rw [h]

theorem unshared_bitmap :
    (m.unshared K k addr new flags).bitmap = ((m.setCount new 1).drop (frameOf (m.pte addr))).bitmap := by
  rw [Machine.unshared, setWord_bitmap]
  exact drop_bitmap_congr rfl

/-- The counters after a copy: the new frame has one reference, and the old one has one less. -/
theorem unshared_toNat (hzero : m.bitmap new = 0) (hold : m.bitmap (frameOf (m.pte addr)) ≠ 0) :
    ((m.unshared K k addr new flags).bitmap f).toNat + (if f = frameOf (m.pte addr) then 1 else 0) =
      (m.bitmap f).toNat + (if f = new then 1 else 0) := by
  have hne : frameOf (m.pte addr) ≠ new := fun he => hold (he ▸ hzero)
  have hold' : (m.setCount new 1).bitmap (frameOf (m.pte addr)) ≠ 0 := by
    rw [setCount_of_ne _ _ _ hne]
    exact hold
  rw [unshared_bitmap, drop_toNat hold']
  by_cases hf : f = new
  · rw [hf, setCount_self, hzero, if_pos rfl]
    rfl
  · rw [setCount_of_ne _ _ _ hf, if_neg hf, Nat.add_zero]

/-- The references by pages, without the page of `addr`. -/
theorem Unmapped.pages (hU : Unmapped m m' addr) (ha : addr < KERNEL_MEMORY) (hw : walk m.ram m.cr3 addr = some g) :
    (pagesOf m'.ram m.cr3 f).card + (if f = g then 1 else 0) = (pagesOf m.ram m.cr3 f).card := by
  have hchange := @pagesOf_change addr f m.cr3 m.ram m'.ram ha fun a ha' hne => by rw [hU.walk_eq ha', if_neg hne]
  have hnone : walk m'.ram m.cr3 addr = none := by rw [hU.walk_eq ha, if_pos rfl]
  have hiff : some g = some f ↔ f = g := by rw [Option.some.injEq, eq_comm]
  rw [hnone, hw, if_neg (by simp : ¬ none = some f), Nat.add_zero] at hchange
  rw [← hchange]
  simp only [hiff]

/-- The references by page tables, when one directory entry changes. -/
theorem tablesOf_change {ram ram' : Nat → Nat → Word} {D : Nat} (hd : d < 768)
    (hrest : ∀ d', d' < 768 → d' ≠ d → ram' D d' = ram D d') :
    (tablesOf ram' D f).card + (if present (ram D d) = true ∧ frameOf (ram D d) = f then 1 else 0) =
      (tablesOf ram D f).card + (if present (ram' D d) = true ∧ frameOf (ram' D d) = f then 1 else 0) := by
  apply card_filter_change (Finset.mem_range.mpr hd)
  intro d' hd' hne
  rw [hrest d' (Finset.mem_range.mp hd') hne]

/-- **The counters follow** the references that `free_page` takes away. -/
theorem Freed.balanced (hF : Freed m L addr m' L') (h : Sound m L T) (ha : addr < KERNEL_MEMORY) (hc : Counted m) :
    Balanced (held m.ram m.cr3) (held m'.ram m.cr3) (fun f => (m.bitmap f).toNat) fun f => (m'.bitmap f).toNat := by
  have hU := hF.unmapped h ha
  have hcount : ∀ {g}, Reaches m g → m.bitmap g ≠ 0 := fun hg => hc.ne_zero h.holds hg
  have hpres : HasPage m.ram m.cr3 (dirIndex addr) (pageTableIndex addr) →
      walk m.ram m.cr3 addr = some (frameOf (m.pte addr)) := by
    intro hpage
    rw [walk_pte, (hasPage_iff ha).mp hpage, if_pos rfl]
  have hold : HasPage m.ram m.cr3 (dirIndex addr) (pageTableIndex addr) → m.bitmap (frameOf (m.pte addr)) ≠ 0 := by
    intro hpage
    refine hcount (h.holds.reaches h.holds.curTask (user_lt ha) ?_)
    rw [← h.holds.cr3]
    exact hpres hpage
  intro f
  cases hF with
  | gone hno => rfl
  | own hpage hs =>
    have hpages := hU.pages (f := f) ha (hpres hpage)
    have htables := tablesOf_change (f := f) hpage.1 hU.rest
    have hdrop := drop_toNat (f := f) (hold hpage)
    have hself : ((m.drop (frameOf (m.pte addr))).unmapped addr).ram m.cr3 (dirIndex addr) = m.ram m.cr3 (dirIndex addr) := by
      have hT := h.holds.curSpace.table _ hpage.1 hpage.2.2.1
      rw [own_ram]
      exact setWord_of_ne _ _ _ _ (Or.inl (ne_of_role h.holds.current_role hT (by simp)))
    rw [hself] at htables
    rw [held, held]
    show ((m.drop (frameOf (m.pte addr))).bitmap f).toNat + _ = (m.bitmap f).toNat + _
    omega
  | copied K k new hpage hs hK hk hlt hzero hfresh =>
    have hpages := hU.pages (f := f) ha (hpres hpage)
    have htables := tablesOf_change (f := f) hpage.1 hU.rest
    have hdrop := drop_toNat (f := f) (hold hpage)
    obtain ⟨h1, _, _⟩ := copied_words h ha hK hpage hlt hfresh (k := k) (f := frameOf (m.pte addr)) rfl
    have hwin : (m.drop (frameOf (m.pte addr))).pte (window (dirIndex addr)) = m.ram m.cr3 (dirIndex addr) := by
      rw [drop_pte]
      exact h.holds.env.pte_window (by have := hpage.1; omega)
    -- the old table is in use, and is not the frame of the page
    have hTdata : frameOf (m.ram m.cr3 (dirIndex addr)) ≠ frameOf (m.pte addr) :=
      ne_of_role (h.holds.curSpace.table _ hpage.1 hpage.2.2.1) (h.holds.curSpace.page _ _ hpage) (by simp)
    have hT := h.holds.reaches_table hpage.1 hpage.2.2.1
    have hT0 : (m.drop (frameOf (m.pte addr))).bitmap (frameOf (m.ram m.cr3 (dirIndex addr))) ≠ 0 := by
      rw [Machine.drop, if_pos (hold hpage), setCount_of_ne _ _ _ hTdata]
      exact hcount hT
    have hcopy := @unshared_toNat (m.drop (frameOf (m.pte addr))) K k new (window (dirIndex addr)) f 6#32 hzero
      (by rw [hwin]; exact hT0)
    rw [hwin] at hcopy
    rw [h1, Function.update_self, present_mkEntry, frameOf_mkEntry hlt (by decide), hpage.2.2.1] at htables
    simp only [present_seven, true_and, eq_comm (b := f)] at htables
    rw [held, held]
    show (((m.drop (frameOf (m.pte addr))).unshared K k (window (dirIndex addr)) new 6#32).bitmap f).toNat + _ =
      (m.bitmap f).toNat + _
    omega

end Counters

end Raampjes.Mm
