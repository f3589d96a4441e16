import Raampjes.Mm.Mapping

/-!
# Address-space teardown

`free_mem_usr` with the frames that `alloc_page_frame` takes. Clearing the first page of a shared page table copies the
table, so the sweep takes a frame, and drops one reference, for every shared table that has a page.

- `Swept`: what the sweep keeps, from its start on; `Swept.freed`, `Swept.dropTable`: one round of each loop;
- `Supplied`: enough frames are free for the copies that are left;
- `freeMemUsr_swept`: the sweep returns, and keeps the layout and the balance of the counters.
-/

namespace Raampjes.Mm

open Progs Refs

variable {s : Bool}

/-- The page tables that the sweep copies: those that are shared and have a page. -/
def sharedTables (m : Machine) : Finset Nat :=
  (Finset.range 768).filter fun d => present (m.ram m.cr3 d) = true ∧ shared (m.ram m.cr3 d) = true ∧
    ∃ i ∈ Finset.range 1024, present (pteAt m.ram m.cr3 d i) = true

def freeFrames (m : Machine) : Finset Nat := (Finset.range frames).filter fun f => m.bitmap f = 0

/-- Enough frames are free for the copies. -/
def Supplied (m : Machine) : Prop := (sharedTables m).card ≤ (freeFrames m).card

/-- Nothing is left of the address space of the running task. -/
structure TornDown (m m' : Machine) : Prop where
  pages : ∀ a, a < KERNEL_MEMORY → walk m'.ram m'.cr3 a = none
  tables : ∀ d, d < 768 → present (m'.ram m'.cr3 d) = false
  counters : ∀ f, (m'.bitmap f).toNat + held m.ram m.cr3 f = (m.bitmap f).toNat
  /-- A frame that was counted for this address space alone is free again. -/
  alone : ∀ f, (m.bitmap f).toNat = held m.ram m.cr3 f → m'.bitmap f = 0
  /-- The frames taken for the copies are free again. -/
  copies : ∀ f, m.bitmap f = 0 → m'.bitmap f = 0
  others : OthersKept m m'

/-- What the sweep keeps. -/
structure Swept (m : Machine) (L : Uses s) (T : Finset Nat) (m1 : Machine) (L1 : Uses s) : Prop where
  sound : Sound m1 L1 T
  slack : Slack m1 L1
  kept : Local m L m1 L1
  counted : Counted m1
  balanced : Balanced (held m.ram m.cr3) (held m1.ram m.cr3) (fun f => (m.bitmap f).toNat) fun f => (m1.bitmap f).toNat

/-- The pages of the user half by their numbers. -/
theorem pageNumber_user {n : Nat} (hn : n < KERNEL_MEMORY / PAGE_SIZE) : n * PAGE_SIZE < KERNEL_MEMORY := by
  rw [KERNEL_MEMORY, PAGE_SIZE] at *
  omega

section Supply

variable {m m' : Machine} {L L' : Uses s} {T : Finset Nat} {K k f g new addr : Nat} {flags : Word}

theorem freeFrames_drop : freeFrames m ⊆ freeFrames (m.drop g) := by
  intro f hf
  obtain ⟨hlt, hzero⟩ := Finset.mem_filter.mp hf
  exact Finset.mem_filter.mpr ⟨hlt, drop_zero hzero⟩

/-- The copy of a page table takes one frame. -/
theorem freeFrames_unshared : (freeFrames m).erase new ⊆ freeFrames (m.unshared K k addr new flags) := by
  intro f hf
  obtain ⟨hne, hf⟩ := Finset.mem_erase.mp hf
  obtain ⟨hlt, hzero⟩ := Finset.mem_filter.mp hf
  refine Finset.mem_filter.mpr ⟨hlt, ?_⟩
  rw [unshared_bitmap]
  refine drop_zero ?_
  rw [setCount_of_ne _ _ _ hne]
  exact hzero

/-- A shared table with the same entry afterwards was there before. -/
theorem Unmapped.mem_sharedTables (hU : Unmapped m m' addr) (hcr3 : m'.cr3 = m.cr3) {d : Nat} (hd : d ∈ sharedTables m')
    (hword : d = dirIndex addr → m'.ram m.cr3 d = m.ram m.cr3 d) : d ∈ sharedTables m := by
  obtain ⟨hlt, hp, hs, i, hi, hq⟩ := Finset.mem_filter.mp hd
  rw [hcr3] at hp hs hq
  have hlt' := Finset.mem_range.mp hlt
  have hsame : m'.ram m.cr3 d = m.ram m.cr3 d := by
    by_cases hat : d = dirIndex addr
    · exact hword hat
    · exact hU.rest d hlt' hat
  rw [hsame] at hp hs
  refine Finset.mem_filter.mpr ⟨hlt, hp, hs, i, hi, ?_⟩
  by_cases hat : d = dirIndex addr ∧ i = pageTableIndex addr
  · -- the page that was freed
    obtain ⟨rfl, rfl⟩ := hat
    rw [hU.gone hp] at hq
    cases hq
  · rw [← hU.entry d i hlt' (Finset.mem_range.mp hi) hp hat]
    exact hq

/-- **Freeing a page** leaves enough frames for the other copies. -/
theorem Freed.supplied (hF : Freed m L addr m' L') (h : Sound m L T) (ha : addr < KERNEL_MEMORY) (hs : Supplied m) :
    Supplied m' := by
  have hU := hF.unmapped h ha
  have hcr3 := (hF.sound h ha).2.same.cr3
  cases hF with
  | gone hno => exact hs
  | own hpage hshared =>
    have htables : sharedTables ((m.drop (frameOf (m.pte addr))).unmapped addr) ⊆ sharedTables m := by
      intro d hd
      refine hU.mem_sharedTables hcr3 hd fun hat => ?_
      have hT := h.holds.curSpace.table _ hpage.1 hpage.2.2.1
      rw [own_ram]
      exact setWord_of_ne _ _ _ _ (Or.inl (ne_of_role h.holds.current_role hT (by simp)))
    calc (sharedTables ((m.drop (frameOf (m.pte addr))).unmapped addr)).card
      _ ≤ (sharedTables m).card := Finset.card_le_card htables
      _ ≤ (freeFrames m).card := hs
      _ ≤ (freeFrames (m.drop (frameOf (m.pte addr)))).card := Finset.card_le_card freeFrames_drop
  | copied K k new hpage hshared hK hk hlt hzero hfresh =>
    -- one copy less is left, and one frame was taken
    have hmem : dirIndex addr ∈ sharedTables m := Finset.mem_filter.mpr ⟨Finset.mem_range.mpr hpage.1, hpage.2.2.1, hshared,
      pageTableIndex addr, Finset.mem_range.mpr hpage.2.1, hpage.2.2.2⟩
    obtain ⟨h1, _, _⟩ := copied_words h ha hK hpage hlt hfresh (k := k) (f := frameOf (m.pte addr)) rfl
    have htables : sharedTables (((m.drop (frameOf (m.pte addr))).unshared K k (window (dirIndex addr)) new 6#32).unmapped
        addr) ⊆ (sharedTables m).erase (dirIndex addr) := by
      intro d hd
      have hne : d ≠ dirIndex addr := by
        rintro rfl
        obtain ⟨_, _, hs', _⟩ := Finset.mem_filter.mp hd
        rw [hcr3, h1, Function.update_self, shared_mkEntry] at hs'
        exact absurd hs' (by decide)
      exact Finset.mem_erase.mpr ⟨hne, hU.mem_sharedTables hcr3 hd fun hat => absurd hat hne⟩
    have h1 := Finset.card_le_card htables
    have h2 := Finset.card_erase_lt_of_mem hmem
    have h3 := Finset.card_le_card (freeFrames_drop (m := m) (g := frameOf (m.pte addr)))
    have h4 := Finset.card_le_card
      (@freeFrames_unshared (m.drop (frameOf (m.pte addr))) K k new (window (dirIndex addr)) 6#32)
    have h5 := Finset.pred_card_le_card_erase (s := freeFrames (m.drop (frameOf (m.pte addr)))) (a := new)
    have h6 : (freeFrames m).card ≤ (freeFrames (((m.drop (frameOf (m.pte addr))).unshared K k (window (dirIndex addr)) new
        6#32).unmapped addr)).card + 1 := by
      show _ ≤ (freeFrames ((m.drop (frameOf (m.pte addr))).unshared K k (window (dirIndex addr)) new 6#32)).card + 1
      omega
    rw [Supplied] at hs ⊢
    omega

end Supply

/-! ## The rounds -/

section Rounds

variable {m m1 m2 : Machine} {L L1 L2 : Uses s} {T : Finset Nat} {d f addr : Nat}

theorem Swept.refl (h : Sound m L T) (hslack : Slack m L) (hc : Counted m) : Swept m L T m L :=
  ⟨h, hslack, Local.refl m L, hc, Balanced.refl _ _⟩

/-- One more change of the running task, with the counters that follow it. -/
theorem Swept.step (hS : Swept m L T m1 L1) (h2 : Sound m2 L2 T) (hl : Local m1 L1 m2 L2) (hk : KernelKept m1 L1 m2)
    (hb : Balanced (held m1.ram m1.cr3) (held m2.ram m1.cr3) (fun f => (m1.bitmap f).toNat) fun f => (m2.bitmap f).toNat) :
    Swept m L T m2 L2 := by
  refine ⟨h2, hk.slack hl.ktab hS.slack, hS.kept.trans hl, hS.counted.local hS.sound.holds h2.holds hl hk hb, ?_⟩
  rw [hS.kept.same.cr3] at hb
  exact hS.balanced.trans hb

/-- A round of the first loop. -/
theorem Swept.freed (hS : Swept m L T m1 L1) (hF : Freed m1 L1 addr m2 L2) (ha : addr < KERNEL_MEMORY) :
    Swept m L T m2 L2 := by
  obtain ⟨h2, hl⟩ := hF.sound hS.sound ha
  exact hS.step h2 hl (hF.kernelKept hS.sound ha) (hF.balanced hS.sound ha hS.counted)

/-- The directory of the running task without one page table. -/
def Machine.dropTable (m : Machine) (d : Nat) : Machine :=
  (m.drop (frameOf (m.ram m.cr3 d))).setWord m.cr3 d (absent (m.ram m.cr3 d))

theorem dropTable_of_ne {g i : Nat} (h : g ≠ m.cr3 ∨ i ≠ d) : (m.dropTable d).ram g i = m.ram g i := by
  rw [Machine.dropTable, setWord_of_ne _ _ _ _ h, drop_ram]

theorem dropTable_self : (m.dropTable d).ram m.cr3 d = absent (m.ram m.cr3 d) := setWord_self ..

/-- A round of the second loop, when no pages are left. -/
theorem Swept.dropTable (hS : Swept m L T m1 L1) (hd : d < 768) (hp : present (m1.ram m1.cr3 d) = true)
    (hnone : ∀ a, a < KERNEL_MEMORY → walk m1.ram m1.cr3 a = none) :
    Swept m L T (m1.dropTable d) L1 ∧ ∀ a, a < KERNEL_MEMORY → walk (m1.dropTable d).ram m1.cr3 a = none := by
  have h := hS.sound
  obtain ⟨h1, l1⟩ := h.drop (frameOf (m1.ram m1.cr3 d))
  obtain ⟨h2, l2⟩ := h1.clearPde hd
  rw [drop_ram, drop_cr3] at h2 l2
  have hc := h.holds.current_role
  have hgone : ∀ a, a < KERNEL_MEMORY → walk (m1.dropTable d).ram m1.cr3 a = none := by
    intro a ha
    by_contra hsome
    obtain ⟨f, hf⟩ := Option.ne_none_iff_exists'.mp hsome
    have hpd := (walk_eq_some.mp hf).1
    have hne : dirIndex a ≠ d := by
      rintro rfl
      rw [dropTable_self, present_absent] at hpd
      cases hpd
    rw [dropTable_of_ne (Or.inr hne)] at hpd
    have hrole := h.holds.curSpace.table _ (dirIndex_user ha) hpd
    rw [walk_congr (dropTable_of_ne (Or.inr hne)) (dropTable_of_ne (Or.inl (ne_of_role hrole hc (by simp)))),
      hnone a ha] at hf
    cases hf
  refine ⟨hS.step h2 (l1.trans l2) ⟨fun i _ => ?_, fun K j hK _ _ => ?_⟩ fun f => ?_, hgone⟩
  · exact dropTable_of_ne (Or.inl (ne_of_role h.holds.low_role hc (by simp)))
  · exact dropTable_of_ne (Or.inl (ne_of_role (h.holds.ktab_role K hK) hc (by simp)))
  · -- the table is the only reference that goes
    have hempty : ∀ ram : Nat → Nat → Word, (∀ a, a < KERNEL_MEMORY → walk ram m1.cr3 a = none) →
        pagesOf ram m1.cr3 f = ∅ := by
      intro ram hno
      refine Finset.filter_eq_empty_iff.mpr fun n hn => ?_
      rw [hno _ (pageNumber_user (Finset.mem_range.mp hn))]
      simp
    have htables := tablesOf_change (f := f) hd fun d' _ hne => dropTable_of_ne (m := m1) (d := d) (g := m1.cr3) (Or.inr hne)
    rw [dropTable_self, present_absent, hp] at htables
    have hcount := drop_toNat (m := m1) (f := f) (hS.counted.ne_zero h.holds (h.holds.reaches_table hd hp))
    rw [held, held, hempty m1.ram hnone]
    have hafter := hempty _ hgone
    simp only [Bool.false_eq_true, false_and, true_and, if_false, Nat.add_zero, eq_comm (b := f)] at htables
    show ((m1.drop (frameOf (m1.ram m1.cr3 d))).bitmap f).toNat + _ =
      (m1.bitmap f).toNat + ((pagesOf (m1.dropTable d).ram m1.cr3 f).card + (tablesOf (m1.dropTable d).ram m1.cr3 f).card)
    rw [hafter]
    omega

end Rounds

/-! ## The sweep -/

/-- After `i` rounds of the first loop. -/
structure PagesSwept (m : Machine) (L : Uses s) (T : Finset Nat) (i : Nat) (t : Machine) : Prop where
  swept : ∃ L1, Swept m L T t L1
  supplied : Supplied t
  gone : ∀ j, j < i → walk t.ram t.cr3 (j * PAGE_SIZE) = none

/-- After `i` rounds of the second loop. -/
structure TablesSwept (m : Machine) (L : Uses s) (T : Finset Nat) (i : Nat) (t : Machine) : Prop where
  swept : ∃ L1, Swept m L T t L1
  pages : ∀ a, a < KERNEL_MEMORY → walk t.ram t.cr3 a = none
  gone : ∀ d, d < i → present (t.ram t.cr3 d) = false

section Sweep

variable {m t : Machine} {L : Uses s} {T : Finset Nat} {i f : Nat}

/-- When the page table has to be copied, a frame is free. -/
theorem Supplied.room (hs : Supplied t) {d j : Nat} (hpage : HasPage t.ram t.cr3 d j) (hshared : shared (t.ram t.cr3 d) = true) :
    ∃ f, f < frames ∧ t.bitmap f = 0 := by
  have hmem : d ∈ sharedTables t :=
    Finset.mem_filter.mpr ⟨Finset.mem_range.mpr hpage.1, hpage.2.2.1, hshared, j, Finset.mem_range.mpr hpage.2.1, hpage.2.2.2⟩
  have hpos : 0 < (freeFrames t).card := lt_of_lt_of_le (Finset.card_pos.mpr ⟨d, hmem⟩) hs
  obtain ⟨f, hf⟩ := Finset.card_pos.mp hpos
  obtain ⟨hlt, hzero⟩ := Finset.mem_filter.mp hf
  exact ⟨f, Finset.mem_range.mp hlt, hzero⟩

/-- The first loop goes on, and one more page is gone. -/
theorem PagesSwept.step (hI : PagesSwept m L T i t) (hi : i < KERNEL_MEMORY / PAGE_SIZE) :
    ∃ t', Returns (freePage allocPageFrame (i * PAGE_SIZE)) t () t' ∧ PagesSwept m L T (i + 1) t' := by
  obtain ⟨⟨L1, hS⟩, hsup, hnone⟩ := hI
  have ha := pageNumber_user hi
  have hgives := hS.counted.gives hS.sound.holds ha
  obtain ⟨hcases, hret⟩ := @freePage_frame _ t L1 T 7 _ hS.sound hS.slack ha hgives.released
  obtain ⟨t', hround⟩ := hret fun hpage hshared => hsup.room hpage hshared
  obtain ⟨L2, hF⟩ := hcases () t' hround
  have hU := hF.unmapped hS.sound ha
  refine ⟨t', hround, ⟨L2, hS.freed hF ha⟩, hF.supplied hS.sound ha hsup, fun j hj => ?_⟩
  rw [(hF.sound hS.sound ha).2.same.cr3, hU.walk_eq (pageNumber_user (lt_of_le_of_lt (Nat.le_of_lt_succ hj) hi))]
  by_cases hat : j * PAGE_SIZE / PAGE_SIZE = i * PAGE_SIZE / PAGE_SIZE
  · rw [if_pos hat]
  · rw [if_neg hat]
    apply hnone
    rcases Nat.lt_succ_iff_lt_or_eq.mp hj with hlt | rfl
    · exact hlt
    · exact absurd rfl hat

/-- The second loop goes on, and one more page table is gone. -/
theorem TablesSwept.step (hI : TablesSwept m L T i t) (hi : i < 768) :
    ∃ t', Returns (freePage allocPageFrame (getPageTable 0 + i * PAGE_SIZE)) t () t' ∧ TablesSwept m L T (i + 1) t' := by
  obtain ⟨⟨L1, hS⟩, hnone, htables⟩ := hI
  have haddr : getPageTable 0 + i * PAGE_SIZE = window i := by
    rw [getPageTable, window, PAGE_SIZE, dirIndex]
    omega
  rw [haddr, freePage]
  refine ⟨_, (freeTable_ok hS.sound.holds hi).mpr rfl, ?_⟩
  cases hp : present (t.ram t.cr3 i) with
  | false =>
    rw [if_neg (by simp)]
    refine ⟨⟨L1, hS⟩, hnone, fun d hd => ?_⟩
    rcases Nat.lt_succ_iff_lt_or_eq.mp hd with hlt | rfl
    · exact htables d hlt
    · exact hp
  | true =>
    rw [if_pos rfl]
    obtain ⟨hS', hnone'⟩ := hS.dropTable hi hp hnone
    have hcr3 : (t.dropTable i).cr3 = t.cr3 := by rw [Machine.dropTable, setWord_cr3, drop_cr3]
    show TablesSwept m L T (i + 1) (t.dropTable i)
    refine ⟨⟨L1, hS'⟩, fun a ha => ?_, fun d hd => ?_⟩
    · rw [hcr3]
      exact hnone' a ha
    · rw [hcr3]
      rcases Nat.lt_succ_iff_lt_or_eq.mp hd with hlt | rfl
      · rw [dropTable_of_ne (Or.inr hlt.ne)]
        exact htables d hlt
      · rw [dropTable_self, present_absent]

/-- After both loops. -/
theorem TablesSwept.tornDown (hI : TablesSwept m L T 768 t) (h : Sound m L T) : TornDown m t := by
  obtain ⟨⟨L1, hS⟩, hnone, htables⟩ := hI
  have hheld : ∀ f, held t.ram m.cr3 f = 0 := by
    intro f
    rw [← hS.kept.same.cr3, held, Nat.add_eq_zero_iff, Finset.card_eq_zero, Finset.card_eq_zero, pagesOf, tablesOf,
      Finset.filter_eq_empty_iff, Finset.filter_eq_empty_iff]
    constructor
    · intro n hn
      rw [hnone _ (pageNumber_user (Finset.mem_range.mp hn))]
      simp
    · intro d hd
      rw [htables d (Finset.mem_range.mp hd)]
      simp
  have hcounters : ∀ f, (t.bitmap f).toNat + held m.ram m.cr3 f = (m.bitmap f).toNat := by
    intro f
    have hb := hS.balanced f
    dsimp only at hb
    rw [hheld f] at hb
    exact hb
  have hzero : ∀ f, (t.bitmap f).toNat = 0 → t.bitmap f = 0 := fun f hf => not_not.mp fun hne => toNat_ne_zero.mpr hne hf
  refine ⟨hnone, htables, hcounters, fun f hf => hzero f ?_, fun f hf => hzero f ?_, ?_⟩
  · have hcount := hcounters f
    omega
  · have hcount := hcounters f
    rw [hf] at hcount
    exact (Nat.add_eq_zero_iff.mp hcount).1
  · exact hS.kept.othersKept h.holds fun q D _ hD => hS.kept.isDirectory h.holds hS.sound.holds hD

/-- The sweep returns. -/
theorem freeMemUsr_swept (h : Sound m L T) (hslack : Slack m L) (hc : Counted m) (hs : Supplied m) :
    ∃ m', Returns (freeMemUsr allocPageFrame) m () m' ∧ TablesSwept m L T 768 m' := by
  have hpages : PagesSwept m L T 0 m := ⟨⟨L, Swept.refl h hslack hc⟩, hs, fun j hj => absurd hj (Nat.not_lt_zero j)⟩
  obtain ⟨m1, h1, hswept, _, hgone⟩ := loop_returns (PagesSwept m L T) hpages fun i t hi hI => hI.step hi
  have hnone : ∀ a, a < KERNEL_MEMORY → walk m1.ram m1.cr3 a = none := by
    intro a ha
    rw [← walk_base]
    apply hgone
    rw [KERNEL_MEMORY, PAGE_SIZE] at *
    omega
  have htables : TablesSwept m L T 0 m1 := ⟨hswept, hnone, fun d hd => absurd hd (Nat.not_lt_zero d)⟩
  obtain ⟨m2, h2, hI⟩ := loop_returns (TablesSwept m L T) htables fun i t hi hI => hI.step hi
  have hsize : (getPageTable KERNEL_MEMORY - getPageTable 0) / PAGE_SIZE = 768 := by
    norm_num [getPageTable, KERNEL_MEMORY, PAGE_SIZE, dirIndex]
  refine ⟨m2, ?_, hI⟩
  rw [freeMemUsr, Returns.bind_iff h1, hsize]
  exact h2

end Sweep

end Raampjes.Mm
