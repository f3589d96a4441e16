import Raampjes.Mm.Teardown

/-!
# Copy on write

`pf_ro_violation` on a protected page of the user half, with the frames that `alloc_page_frame` takes. A shared page table
is copied first, with all its pages protected; then the page gets a frame of its own.

- `Split.entries`, `Split.balanced`: the first stage; `Replaced`: the second; `Stages`: both;
- `PrivateCopy`: what both make of the page, and what they leave alone;
- `pfRoViolation_private`: a write fault on a protected page yields a private copy.
-/

namespace Raampjes.Mm

open Progs Refs

section Words

variable {m m2 : Machine} {L : Layout} {K k new addr : Nat} {flags : Word}

/-- The words after a frame was replaced: the table that names it, the new frame, and the rest. -/
theorem unshared_words (hK : L.ktab = some K) (hx : Spot m L addr) (hap : Apart m L addr new)
    (hm : m2 = m.unshared K k addr new flags) :
    m2.ram (frameOf (m.pde addr)) =
      Function.update (m.ram (frameOf (m.pde addr))) (pageTableIndex addr) (mkEntry new 7#32) ∧
    (∀ j, j < 1024 → m2.ram new j = m.ram (frameOf (m.pte addr)) j) ∧
    (∀ g, g ≠ frameOf (m.pde addr) → g ≠ new → ∀ j, (g ≠ K ∨ j ≠ k) → m2.ram g j = m.ram g j) ∧
    present (m2.ram K k) = false := by
  have hTK := (hx.ne_ktab K hK).1
  have hnT := hap.table
  have hnK := hap.ktab K hK
  rw [hm, unshared_eq hK hx hap]
  refine ⟨funext fun j => ?_, fun j hj => ?_, fun g hg hn j hgK => ?_, ?_⟩
  · rw [setWord_of_ne _ _ _ _ (Or.inl hTK), drop_ram]
    by_cases hj : j = pageTableIndex addr
    · rw [hj, setWord_self, Function.update_self]
    · rw [setWord_of_ne _ _ _ _ (Or.inr hj), setCount_ram, setFrame_of_ne _ _ _ hnT.symm, Function.update_of_ne hj]
  · rw [setWord_of_ne _ _ _ _ (Or.inl hnK), drop_ram, setWord_of_ne _ _ _ _ (Or.inl hnT), setCount_ram, setFrame_self,
      filled_lt hj]
  · rw [setWord_of_ne _ _ _ _ hgK, drop_ram, setWord_of_ne _ _ _ _ (Or.inl hg), setCount_ram, setFrame_of_ne _ _ _ hn]
  · rw [setWord_self, present_absent]

/-- Nor are there new references in the kernel half. -/
theorem unshared_kernelKept (h : Holds m L) (hK : L.ktab = some K) (hx : Spot m L addr) (hap : Apart m L addr new) :
    KernelKept m L (m.unshared K k addr new flags) := by
  obtain ⟨_, _, hrest, hslot⟩ := @unshared_words m _ L K k new addr flags hK hx hap rfl
  constructor
  · intro i _
    refine hrest _ hx.ne_low.symm hap.low.symm i (Or.inl ?_)
    exact ne_of_role h.low_role (h.ktab_role K hK) (by simp)
  · intro K' j hK' _ hp
    obtain rfl : K' = K := Option.some.inj (hK'.symm.trans hK)
    refine hrest _ (hx.ne_ktab K' hK).1.symm (hap.ktab K' hK).symm j (Or.inr ?_)
    rintro rfl
    rw [hslot] at hp
    cases hp

end Words

/-! ## A page table of one's own -/

/-- The entries after the first stage: those of a shared table are protected. -/
structure SplitEntries (m m1 : Machine) (d : Nat) : Prop where
  dir : ∀ d', d' ≠ d → m1.ram m.cr3 d' = m.ram m.cr3 d'
  here : present (m1.ram m.cr3 d) = true
  table : ∀ i, i < 1024 → pteAt m1.ram m.cr3 d i =
    if cowDir (m.ram m.cr3 d) = true then cowPage (pteAt m.ram m.cr3 d i) else pteAt m.ram m.cr3 d i
  rest : ∀ d' i, d' < 768 → d' ≠ d → present (m.ram m.cr3 d') = true → pteAt m1.ram m.cr3 d' i = pteAt m.ram m.cr3 d' i

section Split

variable {alloc : Kernel Nat} {m m1 : Machine} {L L1 : Layout} {T : Finset Nat} {K k d f g new : Nat} {flags : Word}

theorem protect_of_ne (h : g ≠ new) : (m.protect new).ram g = m.ram g := setFrame_of_ne _ _ _ h

theorem protect_self {j : Nat} (hj : j < 1024) : (m.protect new).ram new j = cowPage (m.ram new j) := by
  rw [Machine.protect, setFrame_self, filled_lt hj]

/-- The words of the window page of a table. -/
theorem window_words (h : Holds m L) (hd : d < 768) : frameOf (m.pde (window d)) = m.cr3 ∧
    m.pte (window d) = m.ram m.cr3 d ∧ pageTableIndex (window d) = d := by
  refine ⟨?_, h.env.pte_window (by omega), @pageTableIndex_window d 0 (by omega) (by decide)⟩
  rw [Machine.pde, dirIndex_window' (by omega)]
  exact h.env.self_frame

/-- The words after the first stage, when the table was shared. -/
theorem protected_words (h : Holds m L) (hd : d < 768) (hp : present (m.ram m.cr3 d) = true) (hK : L.ktab = some K)
    (hap : Apart m L (window d) new) (hm : m1 = (m.unshared K k (window d) new 6#32).protect new) :
    m1.ram m.cr3 = Function.update (m.ram m.cr3) d (mkEntry new 7#32) ∧
    (∀ j, j < 1024 → m1.ram new j = cowPage (pteAt m.ram m.cr3 d j)) ∧
    ∀ g, g ≠ m.cr3 → g ≠ new → ∀ j, (g ≠ K ∨ j ≠ k) → m1.ram g j = m.ram g j := by
  obtain ⟨hpde, hpte, hidx⟩ := window_words h hd
  obtain ⟨h1, h2, h3, _⟩ := @unshared_words m _ L K k new (window d) 6#32 hK (Spot.window h hd hp) hap rfl
  rw [hpde, hidx] at h1
  rw [hpde] at h3
  rw [hm]
  refine ⟨?_, fun j hj => ?_, fun g hg hn j hgK => ?_⟩
  · rw [protect_of_ne hap.cr3.symm, h1]
  · rw [protect_self hj, h2 j hj, hpte, pteAt]
  · rw [protect_of_ne hn, h3 g hg hn j hgK]

theorem Split.apart {new : Nat} (h : Sound m L T) (hd : d < 768) (hp : present (m.ram m.cr3 d) = true)
    (hfresh : ¬ Reaches m new) : Apart m L (window d) new := (Spot.window h.holds hd hp).apart h.holds hfresh

theorem Split.entries (ho : Split alloc m L d m1 L1) (h : Sound m L T) (hd : d < 768) (hp : present (m.ram m.cr3 d) = true) :
    SplitEntries m m1 d := by
  cases ho with
  | own hc => exact ⟨fun _ _ => rfl, hp, fun i _ => by rw [if_neg (by rw [hc]; simp)], fun _ _ _ _ _ => rfl⟩
  | copied K k new m1 hc hK hk hnew hlt hzero hfresh =>
    have hap := Split.apart h hd hp hfresh
    obtain ⟨h1, h2, h3⟩ := protected_words (k := k) h.holds hd hp hK hap rfl
    have hf : frameOf (mkEntry new 7#32) = new := frameOf_mkEntry hlt (by decide)
    refine ⟨fun d' hne => ?_, ?_, fun i hi => ?_, fun d' i hd' hne hp' => ?_⟩
    · rw [h1, Function.update_of_ne hne]
    · rw [h1, Function.update_self]
      simp
    · rw [pteAt, h1, Function.update_self, hf, h2 i hi, if_pos hc]
    · have hrole := h.holds.curSpace.table d' hd' hp'
      rw [pteAt, pteAt, h1, Function.update_of_ne hne]
      refine h3 _ (ne_of_role hrole h.holds.current_role (by simp)) ?_ i
        (Or.inl (ne_of_role hrole (h.holds.ktab_role K hK) (by simp)))
      exact fun he => hfresh (he ▸ h.holds.reaches_table hd' hp')

/-- The contents of the pages do not change. -/
theorem Split.contents (ho : Split alloc m L d m1 L1) (h : Sound m L T) (hd : d < 768) (hp : present (m.ram m.cr3 d) = true)
    (hrole : L.role g = .data) (hg : Reaches m g) : m1.ram g = m.ram g := by
  cases ho with
  | own hc => rfl
  | copied K k new m1 hc hK hk hnew hlt hzero hfresh =>
    obtain ⟨_, _, h3⟩ := protected_words (k := k) h.holds hd hp hK (Split.apart h hd hp hfresh) rfl
    funext j
    exact h3 g (ne_of_role hrole h.holds.current_role (by simp)) (fun he => hfresh (he ▸ hg)) j
      (Or.inl (ne_of_role hrole (h.holds.ktab_role K hK) (by simp)))

/-- Every page keeps its frame. -/
theorem SplitEntries.walk_eq (hE : SplitEntries m m1 d) (hp : present (m.ram m.cr3 d) = true) {a : Nat}
    (ha : a < KERNEL_MEMORY) : walk m1.ram m.cr3 a = walk m.ram m.cr3 a := by
  have hi := pageTableIndex_lt a
  by_cases hat : dirIndex a = d
  · have hentry := hE.table _ hi
    have hhere := hE.here
    subst hat
    rw [pteAt, pteAt] at hentry
    rw [walk, walk, hhere, hp, hentry]
    by_cases hc : cowDir (m.ram m.cr3 (dirIndex a)) = true
    · rw [if_pos hc, present_cowPage, frameOf_cowPage]
    · rw [if_neg hc]
  · have hdir := hE.dir _ hat
    cases hpa : present (m.ram m.cr3 (dirIndex a)) with
    | false => simp only [walk, hdir, hpa, Bool.false_and, Bool.false_eq_true, if_false]
    | true =>
      have hentry := hE.rest _ (pageTableIndex a) (dirIndex_user ha) hat hpa
      rw [pteAt, pteAt] at hentry
      rw [walk, walk, hdir] at *
      rw [hentry]

theorem Split.kernelKept (ho : Split alloc m L d m1 L1) (h : Sound m L T) (hd : d < 768)
    (hp : present (m.ram m.cr3 d) = true) : KernelKept m L m1 := by
  cases ho with
  | own hc => exact ⟨fun _ _ => rfl, fun _ _ _ _ _ => rfl⟩
  | copied K k new m1 hc hK hk hnew hlt hzero hfresh =>
    have hap := Split.apart h hd hp hfresh
    obtain ⟨hlow, hslot⟩ := @unshared_kernelKept m L K k new (window d) 6#32 h.holds hK (Spot.window h.holds hd hp) hap
    constructor
    · intro i hi
      rw [protect_of_ne hap.low.symm]
      exact hlow i hi
    · intro K' j hK' hj
      rw [protect_of_ne (hap.ktab K' hK').symm]
      exact hslot K' j hK' hj

/-- **The counters follow** the copy of the page table. -/
theorem Split.toNat (ho : Split alloc m L d m1 L1) (h : Sound m L T) (hd : d < 768) (hp : present (m.ram m.cr3 d) = true)
    (hcount : m.bitmap (frameOf (m.ram m.cr3 d)) ≠ 0) :
    (m1.bitmap f).toNat + (if frameOf (m.ram m.cr3 d) = f then 1 else 0) =
      (m.bitmap f).toNat + (if frameOf (m1.ram m.cr3 d) = f then 1 else 0) := by
  cases ho with
  | own hc => rfl
  | copied K k new m1 hc hK hk hnew hlt hzero hfresh =>
    obtain ⟨_, hpte, _⟩ := window_words h.holds hd
    obtain ⟨h1, _, _⟩ := protected_words (k := k) h.holds hd hp hK (Split.apart h hd hp hfresh) rfl
    have hcopy := @unshared_toNat m K k new (window d) f 6#32 hzero (by rw [hpte]; exact hcount)
    rw [hpte] at hcopy
    rw [h1, Function.update_self, frameOf_mkEntry hlt (by decide)]
    simp only [eq_comm (b := f)]
    exact hcopy

theorem Split.balanced (ho : Split alloc m L d m1 L1) (h : Sound m L T) (hd : d < 768) (hp : present (m.ram m.cr3 d) = true)
    (hcount : m.bitmap (frameOf (m.ram m.cr3 d)) ≠ 0) :
    Balanced (held m.ram m.cr3) (held m1.ram m.cr3) (fun f => (m.bitmap f).toNat) fun f => (m1.bitmap f).toNat := by
  intro f
  have hE := ho.entries h hd hp
  have hpages : pagesOf m1.ram m.cr3 f = pagesOf m.ram m.cr3 f := by
    apply Finset.filter_congr
    intro n hn
    have huser : n * PAGE_SIZE < KERNEL_MEMORY := by
      rw [Finset.mem_range] at hn
      rw [KERNEL_MEMORY, PAGE_SIZE] at *
      omega
    rw [hE.walk_eq hp huser]
  have htables := tablesOf_change (f := f) hd fun d' _ hne => hE.dir d' hne
  have hcounts := ho.toNat h hd hp hcount (f := f)
  rw [hE.here, hp] at htables
  simp only [true_and] at htables
  rw [held, held, hpages]
  show (m1.bitmap f).toNat + _ = (m.bitmap f).toNat + _
  omega

end Split

/-! ## A page of one's own -/

/-- The entries and the contents after the second stage: the page of `v` has the frame `new`. -/
structure Replaced (m m' : Machine) (L : Layout) (v new : Nat) : Prop where
  dir : ∀ d, m'.ram m.cr3 d = m.ram m.cr3 d
  entry : pteAt m'.ram m.cr3 (dirIndex v) (pageTableIndex v) = mkEntry new 7#32
  rest : ∀ d i, d < 768 → present (m.ram m.cr3 d) = true → ¬ (d = dirIndex v ∧ i = pageTableIndex v) →
    pteAt m'.ram m.cr3 d i = pteAt m.ram m.cr3 d i
  bytes : ∀ j, j < 1024 → m'.ram new j = m.ram (frameOf (m.pte v)) j
  contents : ∀ g, L.role g = .data → Reaches m g → m'.ram g = m.ram g

section Page

variable {m m' : Machine} {L : Layout} {T : Finset Nat} {K k f v new : Nat} {flags : Word}

theorem replaced (h : Sound m L T) (hK : L.ktab = some K) (hv : v < KERNEL_MEMORY)
    (hpage : HasPage m.ram m.cr3 (dirIndex v) (pageTableIndex v)) (hs : shared (m.pde v) = false) (hfresh : ¬ Reaches m new) :
    Replaced m (m.unshared K k v new flags) L v new := by
  have hx := Spot.page h.holds (user_lt hv) hpage hs
  obtain ⟨h1, h2, h3, _⟩ := @unshared_words m _ L K k new v flags hK hx (hx.apart h.holds hfresh) rfl
  have hrole := h.holds.curSpace.table _ hpage.1 hpage.2.2.1
  have hcT : m.cr3 ≠ frameOf (m.pde v) := ne_of_role h.holds.current_role hrole (by simp)
  have hdir : ∀ d, (m.unshared K k v new flags).ram m.cr3 d = m.ram m.cr3 d := fun d =>
    h3 m.cr3 hcT (fun he => hfresh (he ▸ h.holds.reaches_cr3)) d
      (Or.inl (ne_of_role h.holds.current_role (h.holds.ktab_role K hK) (by simp)))
  refine ⟨hdir, ?_, fun d i hd hp hne => ?_, h2, fun g hg hr => ?_⟩
  · rw [pteAt, hdir]
    show (m.unshared K k v new flags).ram (frameOf (m.pde v)) _ = _
    rw [h1, Function.update_self]
  · rw [pteAt, pteAt, hdir]
    by_cases hT : frameOf (m.ram m.cr3 d) = frameOf (m.pde v)
    · -- the same table, so the same directory entry
      have hi : i ≠ pageTableIndex v := fun he =>
        hne ⟨h.holds.curSpace.table_inj hd hpage.1 hp hpage.2.2.1 hT, he⟩
      rw [hT, h1, Function.update_of_ne hi]
    · have hdrole := h.holds.curSpace.table d hd hp
      refine h3 _ hT ?_ i (Or.inl (ne_of_role hdrole (h.holds.ktab_role K hK) (by simp)))
      exact fun he => hfresh (he ▸ h.holds.reaches_table hd hp)
  · funext j
    exact h3 g (ne_of_role hg hrole (by simp)) (fun he => hfresh (he ▸ hr)) j
      (Or.inl (ne_of_role hg (h.holds.ktab_role K hK) (by simp)))

theorem Replaced.walk_self (hR : Replaced m m' L v new) (hp : present (m.pde v) = true) (hlt : new < 2 ^ 20) :
    walk m'.ram m.cr3 v = some new := by
  have hentry := hR.entry
  rw [Machine.pde] at hp
  rw [pteAt] at hentry
  rw [walk_eq_some, hentry, hR.dir, frameOf_mkEntry hlt (by decide)]
  exact ⟨hp, by simp, rfl⟩

theorem Replaced.pagesKept (hR : Replaced m m' L v new) : PagesKept m m' v := by
  intro a ha hne
  rw [ne_eq, same_page_iff] at hne
  have hdir := hR.dir (dirIndex a)
  cases hp : present (m.ram m.cr3 (dirIndex a)) with
  | false => simp only [walk, hdir, hp, Bool.false_and, Bool.false_eq_true, if_false]
  | true =>
    have hentry := hR.rest _ _ (dirIndex_user ha) hp hne
    rw [pteAt, pteAt] at hentry
    rw [walk, walk, hentry, hdir]

/-- **The counters follow** the new frame. -/
theorem Replaced.balanced (hR : Replaced m m' L v new) (hv : v < KERNEL_MEMORY)
    (hpage : HasPage m.ram m.cr3 (dirIndex v) (pageTableIndex v)) (hlt : new < 2 ^ 20)
    (hcounts : ∀ f, (m'.bitmap f).toNat + (if f = frameOf (m.pte v) then 1 else 0) =
      (m.bitmap f).toNat + (if f = new then 1 else 0)) :
    Balanced (held m.ram m.cr3) (held m'.ram m.cr3) (fun f => (m.bitmap f).toNat) fun f => (m'.bitmap f).toNat := by
  intro f
  have hw : walk m.ram m.cr3 v = some (frameOf (m.pte v)) := by rw [walk_pte, (hasPage_iff hv).mp hpage, if_pos rfl]
  have hpages := pagesOf_change (f := f) hv hR.pagesKept
  have htables : tablesOf m'.ram m.cr3 f = tablesOf m.ram m.cr3 f := by
    apply Finset.filter_congr
    intro d _
    rw [hR.dir]
  rw [hR.walk_self hpage.2.2.1 hlt, hw] at hpages
  simp only [Option.some.injEq, eq_comm (b := f)] at hpages
  have hcount := hcounts f
  rw [held, held, htables]
  show (m'.bitmap f).toNat + _ = (m.bitmap f).toNat + _
  omega

end Page

/-! ## Write faults -/

/-- The page table of `v` is in another directory, too. -/
def SharedTable (m : Machine) (v : Nat) : Prop :=
  ∃ q D d, q ≠ m.current ∧ IsDirectory m q D ∧ d < 768 ∧ present (m.ram D d) = true ∧ frameOf (m.ram D d) = frameOf (m.pde v)

/-- The page of `v` is a private copy, and everything else is as it was. -/
structure PrivateCopy (m m' : Machine) (v : Nat) : Prop where
  /-- User mode can write to it. -/
  writable : permits m' v true = true
  single : m'.bitmap (frameOf (m'.pte v)) = 1
  alone : ¬ Elsewhere m' v (frameOf (m'.pte v))
  bytes : ∀ j, j < 1024 → m'.ram (frameOf (m'.pte v)) j = m.ram (frameOf (m.pte v)) j
  pages : PagesKept m m' v
  contents : ∀ a f, a < KERNEL_MEMORY → a / PAGE_SIZE ≠ v / PAGE_SIZE → walk m.ram m.cr3 a = some f → m'.ram f = m.ram f
  /-- The other pages of a table that was shared stay protected. -/
  protect : cowDir (m.pde v) = true → ∀ i, i ≠ pageTableIndex v → HasPage m'.ram m'.cr3 (dirIndex v) i →
    Mm.writable (pteAt m'.ram m'.cr3 (dirIndex v) i) = false ∧ shared (pteAt m'.ram m'.cr3 (dirIndex v) i) = true
  others : OthersKept m m'
  counters : ∀ f, (m'.bitmap f).toNat + (if f = frameOf (m.pte v) then 1 else 0) + (if frameOf (m.pde v) = f then 1 else 0) =
    (m.bitmap f).toNat + (if f = frameOf (m'.pte v) then 1 else 0) + (if frameOf (m'.pde v) = f then 1 else 0)
  oldFrame : (m'.bitmap (frameOf (m.pte v))).toNat + 1 = (m.bitmap (frameOf (m.pte v))).toNat
  /-- A table that no other directory has any more is free, and its frame may be the one that the page gets. -/
  oldTable : cowDir (m.pde v) = true → frameOf (m'.pte v) ≠ frameOf (m.pde v) →
    (m'.bitmap (frameOf (m.pde v))).toNat + 1 = (m.bitmap (frameOf (m.pde v))).toNat
  sharedTable : SharedTable m v → frameOf (m'.pte v) ≠ frameOf (m.pde v)

section Fault

variable {alloc : Kernel Nat} {m m' m1 : Machine} {L L1 : Layout} {T : Finset Nat} {d i v : Nat} {u : Unit}

/-- After the first stage user mode can write to the table's pages, once their own entries let it. -/
theorem Split.unlocked (ho : Split alloc m L d m1 L1) (h : Sound m L T) (hpage : HasPage m.ram m.cr3 d i)
    (hcow : (cowDir (m.ram m.cr3 d) || shared (pteAt m.ram m.cr3 d i)) = true) :
    user (m1.ram m.cr3 d) = true ∧ writable (m1.ram m.cr3 d) = true := by
  cases ho with
  | own hc =>
    rw [hc, Bool.false_or] at hcow
    refine h.holds.curSpace.unlock rfl d i hpage ?_ hcow
    rw [← h.holds.curSpace.cow rfl d hpage.1]
    exact hc
  | copied K k new m1 hc hK hk hnew hlt hzero hfresh =>
    have hap := Split.apart h hpage.1 hpage.2.2.1 hfresh
    obtain ⟨h1, _, _⟩ := protected_words (k := k) h.holds hpage.1 hpage.2.2.1 hK hap rfl
    rw [h1, Function.update_self]
    simp

theorem Split.counted (ho : Split alloc m L d m1 L1) (h : Sound m L T) (hc : Counted m) (hd : d < 768)
    (hp : present (m.ram m.cr3 d) = true) : Counted m1 := by
  obtain ⟨h1, l1⟩ := ho.sound h hd hp
  have hcount := hc.ne_zero h.holds (h.holds.reaches_table hd hp)
  exact hc.local h.holds h1.holds l1 (ho.kernelKept h hd hp) (ho.balanced h hd hp hcount)

/-- The table before the first stage is not the one after it, when it was shared. -/
theorem Split.table_ne (ho : Split alloc m L d m1 L1) (h : Sound m L T) (hd : d < 768) (hp : present (m.ram m.cr3 d) = true)
    (hc : cowDir (m.ram m.cr3 d) = true) : frameOf (m1.ram m.cr3 d) ≠ frameOf (m.ram m.cr3 d) := by
  cases ho with
  | own hno =>
    rw [hc] at hno
    cases hno
  | copied K k new m1 _ hK hk hnew hlt hzero hfresh =>
    obtain ⟨h1, _, _⟩ := protected_words (k := k) h.holds hd hp hK (Split.apart h hd hp hfresh) rfl
    rw [h1, Function.update_self, frameOf_mkEntry hlt (by decide)]
    exact fun he => hfresh (he ▸ h.holds.reaches_table hd hp)

/-- What an address of the user half reaches. -/
theorem Holds.user_page (h : Holds m L) {a f : Nat} (ha : a < KERNEL_MEMORY) (hw : walk m.ram m.cr3 a = some f) :
    L.role f = .data ∧ Reaches m f := by
  have hreach : Reaches m f := h.reaches h.curTask (user_lt ha) (by rw [← h.cr3]; exact hw)
  obtain ⟨hpage, rfl⟩ := walk_user ha hw
  exact ⟨h.curSpace.page _ _ hpage, hreach⟩

/-- The two stages of a write fault: in `m1` the page table is the task's own, and in `m'` the frame `new` is the page's. -/
structure Stages (m : Machine) (L : Layout) (v new : Nat) (m1 : Machine) (L1 : Layout) (m' : Machine) (L2 : Layout) :
    Prop where
  user : v < KERNEL_MEMORY
  page : HasPage m.ram m.cr3 (dirIndex v) (pageTableIndex v)
  sound : Sound m L ∅
  counted : Counted m
  split : Split allocPageFrame m L (dirIndex v) m1 L1
  local1 : Local m L m1 L1
  sound1 : Sound m1 L1 ∅
  page1 : HasPage m1.ram m1.cr3 (dirIndex v) (pageTableIndex v)
  same : frameOf (m1.pte v) = frameOf (m.pte v)
  counted1 : Counted m1
  lt : new < 2 ^ 20
  zero : m1.bitmap new = 0
  fresh : ¬ Reaches m1 new
  replaced : Replaced m1 m' L1 v new
  local2 : Local m1 L1 m' L2
  sound2 : Sound m' L2 ∅
  counts : ∀ f, (m'.bitmap f).toNat + (if f = frameOf (m1.pte v) then 1 else 0) =
    (m1.bitmap f).toNat + (if f = new then 1 else 0)
  kernel : KernelKept m1 L1 m'

/-- A write fault that is served goes through both. -/
theorem pfRoViolation_stages (h : Sound m L ∅) (hc : Counted m) (hv : v < KERNEL_MEMORY)
    (hpage : HasPage m.ram m.cr3 (dirIndex v) (pageTableIndex v))
    (hr : Returns (pfRoViolation allocPageFrame v) m u m') :
    (cowDir (m.pde v) || shared (m.pte v)) = true ∧
      ∃ (new : Nat) (m1 : Machine) (L1 L2 : Layout), Stages m L v new m1 L1 m' L2 := by
  have hd := hpage.1
  have hp := hpage.2.2.1
  obtain ⟨_, hcow, m1, L1, K, k, new, m2, ho, hK, hk, hnew, hnlt, hzero, hfresh, rfl⟩ :=
    pfRoViolation_cases h (by simp) hv hpage (hc.hands h.holds)
      (fun _ _ ho => (ho.counted h hc hd hp).hands (ho.sound h hd hp).1.holds) hr
  obtain ⟨h1, l1⟩ := ho.sound h hd hp
  obtain ⟨hpage1, hs1, hsame⟩ := ho.page h hpage
  have hc1 := ho.counted h hc hd hp
  have hpde : m1.pde v = m1.ram m.cr3 (dirIndex v) := by rw [Machine.pde, l1.same.cr3]
  have hold : frameOf (m1.pte v) = frameOf (m.pte v) := by
    rw [Machine.pte, hpde]
    exact hsame
  rw [← l1.same.cr3] at hpage1 hs1
  obtain ⟨h2, l2⟩ := h1.unsharedPage hK hk (user_lt hv) hpage1 hs1 (e := 2#32) hnlt hfresh
  have hx := Spot.page h1.holds (user_lt hv) hpage1 hs1
  exact ⟨hcow, new, m1, L1, _, hv, hpage, h, hc, ho, l1, h1, hpage1, hold, hc1, hnlt, hzero, hfresh,
    replaced h1 hK hv hpage1 hs1 hfresh, l2, h2, fun f => unshared_toNat hzero (hc1.ne_zero h1.holds hx.reached.2),
    unshared_kernelKept h1.holds hK hx (hx.apart h1.holds hfresh)⟩

section Stages

variable {new : Nat} {L2 : Layout} (hS : Stages m L v new m1 L1 m' L2)

include hS

theorem Stages.count_ne_zero : m1.bitmap (frameOf (m1.pte v)) ≠ 0 := by
  have hw : walk m1.ram m1.cr3 v = some (frameOf (m1.pte v)) := by
    rw [walk_pte, (hasPage_iff hS.user).mp hS.page1, if_pos rfl]
  exact hS.counted1.ne_zero hS.sound1.holds (hS.sound1.holds.user_page hS.user hw).2

theorem Stages.old_ne : frameOf (m1.pte v) ≠ new := fun he => hS.count_ne_zero (he ▸ hS.zero)

theorem Stages.pde : m'.pde v = m1.ram m.cr3 (dirIndex v) := by
  rw [Machine.pde, hS.local2.same.cr3, hS.replaced.dir, hS.local1.same.cr3]

theorem Stages.pte : m'.pte v = mkEntry new 7#32 := by
  rw [Machine.pte, Machine.pde, hS.local2.same.cr3]
  exact hS.replaced.entry

theorem Stages.frame : frameOf (m'.pte v) = new := by rw [hS.pte, frameOf_mkEntry hS.lt (by decide)]

theorem Stages.single : m'.bitmap new = 1 := by
  have hone := hS.counts new
  rw [hS.zero, if_neg hS.old_ne.symm, if_pos rfl] at hone
  rw [← UInt8.toNat_inj]
  exact hone

/-- No other page has the new frame. -/
theorem Stages.alone : ¬ Elsewhere m' v new := by
  have hcounted : Counted m' := hS.counted1.local hS.sound1.holds hS.sound2.holds hS.local2 hS.kernel
    (hS.replaced.balanced hS.user hS.page1 hS.lt hS.counts)
  have hw : walk m'.ram m'.cr3 v = some new := by
    rw [hS.local2.same.cr3]
    exact hS.replaced.walk_self hS.page1.2.2.1 hS.lt
  exact hcounted.elsewhere hS.sound2.holds hS.user hw hS.single

theorem Stages.writable (hcow : (cowDir (m.pde v) || shared (m.pte v)) = true) : permits m' v true = true := by
  obtain ⟨huser, hwrite⟩ := hS.split.unlocked hS.sound hS.page hcow
  have hpte : m'.ram (frameOf (m'.ram m'.cr3 (dirIndex v))) (pageTableIndex v) = mkEntry new 7#32 := hS.pte
  have hpde : m'.ram m'.cr3 (dirIndex v) = m1.ram m.cr3 (dirIndex v) := hS.pde
  have hhere := (hS.split.entries hS.sound hS.page.1 hS.page.2.2.1).here
  rw [permits, hpte, hpde, huser, hwrite, hhere]
  simp

/-- The contents of the page are copied, and the others stay. -/
theorem Stages.contents {a f : Nat} (ha : a < KERNEL_MEMORY) (hw : walk m.ram m.cr3 a = some f) : m'.ram f = m.ram f := by
  have hE := hS.split.entries hS.sound hS.page.1 hS.page.2.2.1
  obtain ⟨hrole, hreach⟩ := hS.sound.holds.user_page ha hw
  rw [← hE.walk_eq hS.page.2.2.1 ha, ← hS.local1.same.cr3] at hw
  obtain ⟨hrole1, hreach1⟩ := hS.sound1.holds.user_page ha hw
  rw [hS.replaced.contents f hrole1 hreach1, hS.split.contents hS.sound hS.page.1 hS.page.2.2.1 hrole hreach]

theorem Stages.bytes {j : Nat} (hj : j < 1024) : m'.ram new j = m.ram (frameOf (m.pte v)) j := by
  have hw : walk m.ram m.cr3 v = some (frameOf (m.pte v)) := by rw [walk_pte, (hasPage_iff hS.user).mp hS.page, if_pos rfl]
  obtain ⟨hrole, hreach⟩ := hS.sound.holds.user_page hS.user hw
  rw [hS.replaced.bytes j hj, hS.same, hS.split.contents hS.sound hS.page.1 hS.page.2.2.1 hrole hreach]

theorem Stages.pages : PagesKept m m' v := by
  intro a ha hne
  rw [← (hS.split.entries hS.sound hS.page.1 hS.page.2.2.1).walk_eq hS.page.2.2.1 ha, ← hS.local1.same.cr3]
  exact hS.replaced.pagesKept a ha hne

theorem Stages.protect (hcd : cowDir (m.pde v) = true) {i : Nat} (hi : i ≠ pageTableIndex v)
    (hpi : HasPage m'.ram m'.cr3 (dirIndex v) i) :
    Mm.writable (pteAt m'.ram m'.cr3 (dirIndex v) i) = false ∧ shared (pteAt m'.ram m'.cr3 (dirIndex v) i) = true := by
  have hp1 : present (m1.ram m1.cr3 (dirIndex v)) = true := hS.page1.2.2.1
  have hentry := hS.replaced.rest (dirIndex v) i hS.page.1 hp1 (fun he => hi he.2)
  have hE := hS.split.entries hS.sound hS.page.1 hS.page.2.2.1
  rw [Machine.pde] at hcd
  rw [hS.local2.same.cr3, hentry, hS.local1.same.cr3, hE.table i hpi.2.1, if_pos hcd]
  simp

/-- **The counters follow** both stages. -/
theorem Stages.counters (f : Nat) :
    (m'.bitmap f).toNat + (if f = frameOf (m.pte v) then 1 else 0) + (if frameOf (m.pde v) = f then 1 else 0) =
      (m.bitmap f).toNat + (if f = new then 1 else 0) + (if frameOf (m1.ram m.cr3 (dirIndex v)) = f then 1 else 0) := by
  have hreach := hS.sound.holds.reaches_table hS.page.1 hS.page.2.2.1
  have htable := hS.split.toNat hS.sound hS.page.1 hS.page.2.2.1 (hS.counted.ne_zero hS.sound.holds hreach) (f := f)
  have hpage := hS.counts f
  rw [hS.same] at hpage
  rw [Machine.pde]
  omega

/-- Neither page table is the old frame. -/
theorem Stages.table_ne : frameOf (m.pde v) ≠ frameOf (m.pte v) ∧
    frameOf (m1.ram m.cr3 (dirIndex v)) ≠ frameOf (m.pte v) := by
  have hdata : L.role (frameOf (m.pte v)) = .data := hS.sound.holds.curSpace.page _ _ hS.page
  have hdata1 : L1.role (frameOf (m1.pte v)) = .data := hS.sound1.holds.curSpace.page _ _ hS.page1
  have htable : L.role (frameOf (m.pde v)) = .table (dirIndex v) :=
    hS.sound.holds.curSpace.table _ hS.page.1 hS.page.2.2.1
  have htable1 := hS.sound1.holds.curSpace.table _ hS.page.1 hS.page1.2.2.1
  rw [hS.local1.same.cr3] at htable1
  refine ⟨ne_of_role htable hdata (by simp), ?_⟩
  rw [← hS.same]
  exact ne_of_role htable1 hdata1 (by simp)

theorem Stages.oldFrame : (m'.bitmap (frameOf (m.pte v))).toNat + 1 = (m.bitmap (frameOf (m.pte v))).toNat := by
  have hf := hS.counters (frameOf (m.pte v))
  obtain ⟨hT, hT1⟩ := hS.table_ne
  rw [if_pos rfl, if_neg hT, if_neg (hS.same ▸ hS.old_ne), if_neg hT1] at hf
  exact hf

theorem Stages.oldTable (hcd : cowDir (m.pde v) = true) (hne : new ≠ frameOf (m.pde v)) :
    (m'.bitmap (frameOf (m.pde v))).toNat + 1 = (m.bitmap (frameOf (m.pde v))).toNat := by
  have hf := hS.counters (frameOf (m.pde v))
  have hT1 : frameOf (m1.ram m.cr3 (dirIndex v)) ≠ frameOf (m.pde v) :=
    hS.split.table_ne hS.sound hS.page.1 hS.page.2.2.1 hcd
  rw [if_neg hS.table_ne.1, if_pos rfl, if_neg hne.symm, if_neg hT1] at hf
  exact hf

/-- A table that another directory names is still in use. -/
theorem Stages.sharedTable (hT : SharedTable m v) : new ≠ frameOf (m.pde v) := by
  obtain ⟨q, D, d, hq, hD, hd, hp, hf⟩ := hT
  rw [← hf]
  obtain ⟨hsome, rfl⟩ := (isDirectory_iff hS.sound.holds).mp hD
  obtain ⟨t, ht⟩ := Option.isSome_iff_exists.mp hsome
  have hforeign : Foreign m L (frameOf (m.ram (L.dir q) d)) := ⟨q, t, ht, hq, Or.inr (Or.inl ⟨d, hd, hp, rfl⟩)⟩
  exact ((hS.local1.foreign hforeign).ne_unreached hS.sound1.holds hS.fresh).symm

end Stages

/-- **A write fault on a protected page** yields a private copy. -/
theorem pfRoViolation_private (h : Sound m L ∅) (hc : Counted m) (hv : v < KERNEL_MEMORY)
    (hpage : HasPage m.ram m.cr3 (dirIndex v) (pageTableIndex v))
    (hr : Returns (pfRoViolation allocPageFrame v) m u m') : PrivateCopy m m' v := by
  obtain ⟨hcow, new, m1, L1, L2, hS⟩ := pfRoViolation_stages h hc hv hpage hr
  constructor
  case writable => exact hS.writable hcow
  case pages => exact hS.pages
  case contents => exact fun a f ha _ hw => hS.contents ha hw
  case protect => exact fun hcd i => hS.protect hcd
  case others =>
    exact (hS.local1.trans hS.local2).othersKept h.holds fun q D _ hD =>
      hS.local2.isDirectory hS.sound1.holds hS.sound2.holds (hS.local1.isDirectory h.holds hS.sound1.holds hD)
  case oldFrame => exact hS.oldFrame
  -- the rest speaks of the new frame
  all_goals rw [hS.frame]
  case single => exact hS.single
  case alone => exact hS.alone
  case bytes => exact fun j => hS.bytes
  case counters =>
    rw [hS.pde]
    exact hS.counters
  case oldTable => exact hS.oldTable
  case sharedTable => exact hS.sharedTable

/-- The second stage returns when a frame is free. -/
theorem Split.returns (ho : Split allocPageFrame m L (dirIndex v) m1 L1) (h : Sound m L ∅) (hc : Counted m)
    (hv : v < KERNEL_MEMORY) (hpage : HasPage m.ram m.cr3 (dirIndex v) (pageTableIndex v))
    (hcow : (cowDir (m.pde v) || shared (m.pte v)) = true) (hroom : ∃ f, f < frames ∧ m1.bitmap f = 0) :
    ∃ m', Returns (unshare allocPageFrame (copyPageTable allocPageFrame stackDepth) v (PG_KERN ||| PG_RW)) m1 () m' := by
  obtain ⟨h1, l1⟩ := ho.sound h hpage.1 hpage.2.2.1
  obtain ⟨hpage1, hs1, _⟩ := ho.page h hpage
  rw [← l1.same.cr3] at hpage1 hs1
  have hc1 := ho.counted h hc hpage.1 hpage.2.2.1
  obtain ⟨K, k, hK, hk⟩ := ho.room h (by simp) hpage hcow
  have hiff := fun u m' => @unshare_ok _ allocPageFrame (copyPageTable allocPageFrame stackDepth) m1 m' L1 K k v
    (PG_KERN ||| PG_RW) u h1.holds hK hk (Spot.page h1.holds (user_lt hv) hpage1 hs1) (by decide) (hc1.hands h1.holds)
  obtain ⟨new, hnew⟩ := @allocPageFrame_returns
    (m1.setWord K k (mkEntry (frameOf (m1.pte v)) (PG_KERN ||| PG_RW ||| 1#32))) hroom
  obtain ⟨hlt, hzero, _⟩ := allocPageFrame_ok hnew
  rw [frames_eq] at hlt
  exact ⟨_, (hiff () _).mpr ⟨new, _, hnew, hlt, hzero, fun hr => hc1.ne_zero h1.holds hr hzero, rfl⟩⟩

/-- **`pf_ro_violation` returns** when enough frames are free: one for the page, and one for a shared table. -/
theorem pfRoViolation_returns (h : Sound m L ∅) (hc : Counted m) (hv : v < KERNEL_MEMORY)
    (hpage : HasPage m.ram m.cr3 (dirIndex v) (pageTableIndex v)) (hcode : m.cur.codeEnd < v)
    (hcow : (cowDir (m.pde v) || shared (m.pte v)) = true)
    (hroom : (if cowDir (m.pde v) = true then 2 else 1) ≤ (freeFrames m).card) :
    ∃ m', Returns (pfRoViolation allocPageFrame v) m () m' := by
  have hd := hpage.1
  have hp := hpage.2.2.1
  have hiff := fun m' => @pfRoViolation_guard allocPageFrame m m' v () h.holds.env (user_lt hv) hp
  have hfree : ∀ t : Machine, 0 < (freeFrames t).card → ∃ f, f < frames ∧ t.bitmap f = 0 := by
    intro t hpos
    obtain ⟨f, hf⟩ := Finset.card_pos.mp hpos
    obtain ⟨hlt, hzero⟩ := Finset.mem_filter.mp hf
    exact ⟨f, Finset.mem_range.mp hlt, hzero⟩
  cases hcd : cowDir (m.pde v) with
  | false =>
    rw [if_neg (by rw [hcd]; simp)] at hroom
    obtain ⟨m', hr⟩ := Split.returns (.own hcd) h hc hv hpage hcow (hfree m hroom)
    refine ⟨m', (hiff m').mpr ⟨hcode, hcow, ?_⟩⟩
    rw [hcd, onlyIf_neg rfl, Returns.bind_iff (pure_ok.mpr ⟨rfl, rfl⟩)]
    exact hr
  | true =>
    rw [if_pos hcd] at hroom
    have hs : shared (m.ram m.cr3 (dirIndex v)) = true := by
      rw [← h.holds.curSpace.cow rfl _ hd]
      exact hcd
    have hap : ∀ f, f < 2 ^ 20 → m.bitmap f = 0 → Apart m L (window (dirIndex v)) f := fun f _ hz =>
      Split.apart h hd hp fun hr => hc.ne_zero h.holds hr hz
    obtain ⟨_, hret⟩ := @copyPageTable_frame _ m L ∅ (dirIndex v) 7 h (h.slack (by simp)) hd hp hs hap
    obtain ⟨m1, hcopy⟩ := hret (hfree m (by omega))
    obtain ⟨K, k, new, m2, hK, hk, hnew, hnlt, hzero, hfresh, rfl⟩ :=
      copyPageTable_cases h (by simp) hd hp hs (hc.hands h.holds) hcopy
    have hblock := (@protectTable_ok allocPageFrame m L ∅ (dirIndex v) () K k new h hd hp hcd hK hk hnlt hfresh _ m2 hnew
      hzero).mpr rfl
    have hcard : (freeFrames m).card ≤ (freeFrames (m.unshared K k (window (dirIndex v)) new 6#32)).card + 1 := by
      have h1 := Finset.card_le_card (@freeFrames_unshared m K k new (window (dirIndex v)) 6#32)
      have h2 := Finset.pred_card_le_card_erase (s := freeFrames m) (a := new)
      omega
    obtain ⟨m', hr⟩ := Split.returns (.copied K k new m2 hcd hK hk hnew hnlt hzero hfresh) h hc hv hpage hcow
      (hfree (m.unshared K k (window (dirIndex v)) new 6#32) (by omega))
    refine ⟨m', (hiff m').mpr ⟨hcode, hcow, ?_⟩⟩
    rw [hcd, onlyIf_pos rfl, getPageTable_eq (dirIndex_lt (user_lt hv)).le]
    refine (bind_ok _ _ _).mpr ⟨(), _, (bind_ok _ _ _).mpr ⟨(), _, hcopy, hblock⟩, hr⟩

end Fault

end Raampjes.Mm
