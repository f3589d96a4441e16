import Raampjes.Mm.WriteFault

/-!
# A sweep that leaves nothing

- `freeMemUsr_tornDown`: `free_mem_usr` returns, and nothing of the address space is left;
- `Uses.loosen`: a strict layout is a layout;
- `freeMemUsr_tornDown_fork`: a child with a page table that it shares, and with a page that has two addresses.
-/

namespace Raampjes.Mm

open Progs Refs

section TornDown

variable {s : Bool} {m : Machine} {L : Uses s} {T : Finset Nat}

/-- **Address-space teardown**: the sweep returns, and leaves nothing of the address space. -/
theorem freeMemUsr_tornDown (h : Sound m L T) (hslack : Slack m L) (hc : Counted m) (hs : Supplied m) :
    ∃ m', Returns (freeMemUsr allocPageFrame) m () m' ∧ TornDown m m' := by
  obtain ⟨m', hr, hI⟩ := freeMemUsr_swept h hslack hc hs
  exact ⟨m', hr, hI.tornDown h⟩

end TornDown

/-! ## A page with two addresses -/

/-- The layout without the conditions of a strict one. -/
def Uses.loosen (L : Layout) : Uses false where
  pt1 := L.pt1
  ktab := L.ktab
  dir := L.dir
  own := L.own
  role f := match L.role f with
    | .table _ => .table 0
    | r => r

section Loosen

variable {ram : Nat → Nat → Word} {m : Machine} {L : Layout} {T : Finset Nat} {D p f : Nat} {t : TaskStruct}

theorem DirOk.loosen (h : DirOk ram L D) : DirOk ram L.loosen D :=
  ⟨h.self, h.self_frame, h.self_private, h.low, h.low_frame, h.low_private, h.ktab, h.no_ktab, h.rest, h.uncow⟩

theorem loosen_role {r : Role} (h : L.role f = r) (hr : ∀ d, r ≠ .table d) : L.loosen.role f = r := by
  cases r with
  | table d => exact absurd rfl (hr d)
  | _ => simp only [Uses.loosen, h]

theorem loosen_table {d : Nat} (h : L.role f = .table d) : L.loosen.role f = .table 0 := by
  simp only [Uses.loosen, h]

/-- What only a strict layout asks for is not asked. -/
theorem SpaceOk.loosen (h : SpaceOk ram L D) : SpaceOk ram L.loosen D where
  table d hd hp := loosen_table (h.table d hd hp)
  page d i hi := loosen_role (h.page d i hi) (fun _ hr => by cases hr)
  inj hs := by cases hs
  cow hs := by cases hs
  protect hs := by cases hs
  unlock hs := by cases hs

theorem TaskOk.loosen (h : TaskOk ram L p t) : TaskOk ram L.loosen p t where
  pid := h.pid
  lt := h.lt
  role := loosen_role h.role (fun _ hr => by cases hr)
  dirOk := h.dirOk.loosen
  spaceOk := h.spaceOk.loosen
  boot := h.boot
  slots := h.slots
  own hp := loosen_role (h.own hp) (fun _ hr => by cases hr)

theorem Holds.loosen (h : Holds m L) : Holds m L.loosen where
  low := h.low
  low_role := loosen_role h.low_role (fun _ hr => by cases hr)
  ktab_role K hK := loosen_role (h.ktab_role K hK) (fun _ hr => by cases hr)
  task p t ht := (h.task p t ht).loosen
  init := h.init
  cur := h.cur
  cr3 := h.cr3
  sharing := h.sharing
  single := h.single

theorem Sound.loosen (h : Sound m L T) : Sound m L.loosen T := ⟨h.holds.loosen, h.tidy.low, h.tidy.slot, h.tidy.plain⟩

end Loosen

/-- One page, under a new page table, at two addresses. -/
def Machine.twice (m : Machine) (f t : Nat) : Machine :=
  ((m.paged 0x400000 f t).mapped 0x401000 f (PG_USER ||| PG_RW)).setCount f 2

def Uses.twice (L : Layout) (f t : Nat) : Uses false :=
  (((L.use f .unused).use t (.table 1)).use f .data).loosen

section Twice

variable {m : Machine} {L : Layout} {T : Finset Nat} {f t d : Nat}

theorem Starts.paged_count (hS : Starts m f t) (h : Holds m L) {a : Nat} : (m.paged a f t).bitmap f = 1 := by
  have hne : t ≠ (m.setCount f 1).cr3 := hS.table_ne h
  rw [Machine.paged, Machine.mapped, setWord_bitmap, addTable_eq hne, setWord_bitmap,
    setCount_of_ne _ _ _ hS.fresh.2.2.2.2.2.2.symm, setFrame_bitmap, setCount_self]

/-- The new page table is private, with one page. -/
theorem Starts.paged_words (hS : Starts m f t) (h : Holds m L) :
    (m.paged 0x400000 f t).ram m.cr3 1 = mkEntry t 7#32 ∧ (m.paged 0x400000 f t).ram t 0 = mkEntry f 7#32 ∧
      (m.paged 0x400000 f t).ram t 1 = 0#32 := by
  have hne := hS.table_ne h
  exact ⟨paged_dir hne hS.table_lt 1, paged_table hne hS.table_lt (by decide), paged_table hne hS.table_lt (by decide)⟩

theorem twice_eq (hS : Starts m f t) (h : Holds m L) :
    m.twice f t = ((m.paged 0x400000 f t).setWord t 1 (mkEntry f 7#32)).setCount f 2 := by
  have hpde : (m.paged 0x400000 f t).pde 0x401000 = mkEntry t 7#32 := (hS.paged_words h).1
  rw [Machine.twice, Machine.mapped, hpde, frameOf_mkEntry hS.table_lt (by decide)]
  rfl

/-- The machine with the new page at one address. -/
theorem Starts.paged_sound (hS : Starts m f t) (h : Sound m L T) (hc : Counted m)
    (hno : present (m.ram m.cr3 1) = false) :
    Sound (m.paged 0x400000 f t) (((L.use f .unused).use t (.table 1)).use f .data) T ∧
      Counted (m.paged 0x400000 f t) := by
  have hA1 : ∀ f, Hands allocUnreferenced (m.setCount f 1) := fun f => hands_unreferenced _
  have hF := @Starts.paged m L f t hS 0x400000 hno
  refine ⟨(hF.sound h (by decide) plain_userRw hA1).1, hF.counted h hc (by decide) plain_userRw hA1 ?_⟩
  rintro ⟨_, _, hp, _⟩
  exact absurd (hp.symm.trans hno) (by decide)

/-- The second address is counted. -/
theorem twice_balanced (hS : Starts m f t) (h : Sound m L T) (hc : Counted m)
    (hno : present (m.ram m.cr3 1) = false) :
    Balanced (held (m.paged 0x400000 f t).ram m.cr3) (held (m.twice f t).ram m.cr3)
      (fun g => ((m.paged 0x400000 f t).bitmap g).toNat) fun g => ((m.twice f t).bitmap g).toNat := by
  obtain ⟨hp, _⟩ := hS.paged_sound h hc hno
  obtain ⟨hdir, _, habs⟩ := hS.paged_words h.holds
  have hflt := hS.fresh.1
  rw [frames_eq] at hflt
  have hpde : present ((m.paged 0x400000 f t).ram m.cr3 1) = true := by
    rw [hdir]
    simp
  have hnew : ¬ HasPage (m.paged 0x400000 f t).ram m.cr3 (dirIndex 0x401000) (pageTableIndex 0x401000) := by
    rintro ⟨_, _, _, hi⟩
    have hword : (m.paged 0x400000 f t).ram (frameOf ((m.paged 0x400000 f t).ram m.cr3 1)) 1 = 0#32 := by
      rw [hdir, frameOf_mkEntry hS.table_lt (by decide), habs]
    exact absurd (hi.symm.trans (congrArg present hword)) (by decide)
  have hheld := held_mapped (f := f) hp (a := 0x401000) (by decide) hpde hflt plain_userRw hnew
  intro g
  have hg : held (m.twice f t).ram m.cr3 g = held (m.paged 0x400000 f t).ram m.cr3 g + if f = g then 1 else 0 := hheld g
  have hcount : ((m.twice f t).bitmap g).toNat = ((m.paged 0x400000 f t).bitmap g).toNat + if f = g then 1 else 0 := by
    rw [twice_eq hS h.holds]
    by_cases hfg : f = g
    · rw [← hfg, setCount_self, hS.paged_count h.holds, if_pos rfl]
      rfl
    · rw [setCount_of_ne _ _ _ (Ne.symm hfg), setWord_bitmap, if_neg hfg, Nat.add_zero]
  show ((m.twice f t).bitmap g).toNat + _ = ((m.paged 0x400000 f t).bitmap g).toNat + _
  omega

/-- **A page with two addresses** fits into a layout that is not strict. -/
theorem twice_sound (hS : Starts m f t) (h : Sound m L T) (hc : Counted m) (hno : present (m.ram m.cr3 1) = false) :
    Sound (m.twice f t) (L.twice f t) T ∧ Counted (m.twice f t) := by
  obtain ⟨hp, hcp⟩ := hS.paged_sound h hc hno
  obtain ⟨hdir, _⟩ := hS.paged_words h.holds
  have hflt := hS.fresh.1
  rw [frames_eq] at hflt
  have hframe : frameOf ((m.paged 0x400000 f t).ram m.cr3 1) = t := by
    rw [hdir]
    exact frameOf_mkEntry hS.table_lt (by decide)
  have hpde : present ((m.paged 0x400000 f t).ram m.cr3 1) = true := by
    rw [hdir]
    simp
  have hown : shared ((m.paged 0x400000 f t).ram m.cr3 1) = false := by
    rw [hdir]
    simp
  have hdata : (L.twice f t).role (frameOf (mkEntry f 7#32)) = .data := by
    rw [frameOf_mkEntry hflt (by decide)]
    exact loosen_role (use_role_self ..) (fun _ hr => by cases hr)
  obtain ⟨h1, l1⟩ := hp.loosen.setPte (i := 1) (w := mkEntry f 7#32) (by decide) hpde hown
    (fun _ => ⟨hdata, fun hs => by cases hs⟩) (fun hs => by cases hs) fun _ _ => by simp
  obtain ⟨h2, l2⟩ := h1.setCount f 2
  have hcr3 : (m.paged 0x400000 f t).cr3 = m.cr3 := rfl
  rw [hcr3, hframe, ← twice_eq hS h.holds] at h2 l2
  rw [hcr3, hframe] at l1
  -- the word lies in a page table of the user half
  have htable := hp.holds.curSpace.table 1 (by decide) hpde
  rw [hcr3, hframe] at htable
  have hkept : ∀ g, g ≠ t → (m.twice f t).ram g = (m.paged 0x400000 f t).ram g := fun g hg => by
    rw [twice_eq hS h.holds]
    funext j
    exact setWord_of_ne _ _ _ _ (Or.inl hg)
  have hkernel : KernelKept (m.paged 0x400000 f t) (L.twice f t) (m.twice f t) :=
    ⟨fun i _ => congrFun (hkept _ (ne_of_role hp.holds.low_role htable (by simp))) i,
      fun K j hK _ _ => congrFun (hkept _ (ne_of_role (hp.holds.ktab_role K hK) htable (by simp))) j⟩
  exact ⟨h2, hcp.local hp.loosen.holds h2.holds (l1.trans l2) hkernel (twice_balanced hS h hc hno)⟩

/-- The directory, except for the new entry. -/
theorem twice_dir (hS : Starts m f t) (h : Holds m L) (d : Nat) :
    (m.twice f t).ram m.cr3 d = if d = 1 then mkEntry t 7#32 else m.ram m.cr3 d := by
  have hword := paged_dir (a := 0x400000) (f := f) (hS.table_ne h) hS.table_lt d
  rw [twice_eq hS h]
  exact (setWord_of_ne _ _ _ _ (Or.inl (hS.table_ne h).symm)).trans hword

theorem twice_of_ne (hS : Starts m f t) (h : Holds m L) {g : Nat} (hg : g ≠ m.cr3) (ht : g ≠ t) :
    (m.twice f t).ram g = m.ram g := by
  rw [twice_eq hS h, ← paged_of_ne (a := 0x400000) (f := f) (hS.table_ne h) hS.table_lt hg ht]
  funext j
  exact setWord_of_ne _ _ _ _ (Or.inl ht)

/-- Both pages are there, in one frame. -/
theorem twice_pages (hS : Starts m f t) (h : Holds m L) : HasPage (m.twice f t).ram m.cr3 1 0 ∧
    HasPage (m.twice f t).ram m.cr3 1 1 ∧ pageOf (m.twice f t).ram m.cr3 1 0 = f ∧ pageOf (m.twice f t).ram m.cr3 1 1 = f := by
  have hflt := hS.fresh.1
  rw [frames_eq] at hflt
  have hdir : (m.twice f t).ram m.cr3 1 = mkEntry t 7#32 := twice_dir hS h 1
  have hframe : frameOf (mkEntry t 7#32) = t := frameOf_mkEntry hS.table_lt (by decide)
  have h0 : (m.twice f t).ram t 0 = mkEntry f 7#32 := by
    rw [twice_eq hS h, ← (hS.paged_words h).2.1]
    exact setWord_of_ne _ _ _ _ (Or.inr (by decide))
  have h1 : (m.twice f t).ram t 1 = mkEntry f 7#32 := by
    rw [twice_eq hS h]
    exact setWord_self ..
  have hpage : ∀ i, i < 2 → HasPage (m.twice f t).ram m.cr3 1 i ∧ pageOf (m.twice f t).ram m.cr3 1 i = f := fun i hi => by
    have hword : (m.twice f t).ram t i = mkEntry f 7#32 := by
      interval_cases i
      · exact h0
      · exact h1
    rw [HasPage, pageOf, hdir, hframe, hword, frameOf_mkEntry hflt (by decide)]
    simp only [present_mkEntry]
    exact ⟨⟨by decide, by omega, by decide, by decide⟩, trivial⟩
  exact ⟨(hpage 0 (by decide)).1, (hpage 1 (by decide)).1, (hpage 0 (by decide)).2, (hpage 1 (by decide)).2⟩

/-- Two frames are taken for it. -/
theorem twice_free (hS : Starts m f t) (h : Holds m L) : (freeFrames m).card ≤ (freeFrames (m.twice f t)).card + 2 := by
  have hsub : freeFrames (m.paged 0x400000 f t) ⊆ freeFrames (m.twice f t) := by
    intro g hg
    obtain ⟨hlt, hzero⟩ := Finset.mem_filter.mp hg
    have hne : g ≠ f := by
      rintro rfl
      rw [hS.paged_count h] at hzero
      exact absurd hzero (by decide)
    refine Finset.mem_filter.mpr ⟨hlt, ?_⟩
    rw [twice_eq hS h, setCount_of_ne _ _ _ hne, setWord_bitmap, hzero]
  have hcard := Finset.card_le_card hsub
  have hroom := paged_room (a := 0x400000) (f := f) (hS.table_ne h)
  omega

end Twice

/-- The child's stack has the only table that is shared. -/
theorem twice_supplied {alloc : Kernel Nat} {f t K a fr b D f' t' : Nat} {L L1 L2 : Layout} {m1 m2 m : Machine}
    (hS : Starts smallBoot f t) (hF : FirstFork alloc (smallBoot.first f t) L m1 L1 m2 L2 K a fr b D m)
    (hS' : Starts m f' t') : Supplied (m.twice f' t') := by
  have hm := hF.sound'.holds
  have hone : sharedTables (m.twice f' t') ⊆ {767} := by
    intro d hd
    obtain ⟨hlt, hp, hs, _⟩ := Finset.mem_filter.mp hd
    have hcr3 : (m.twice f' t').cr3 = m.cr3 := rfl
    rw [hcr3, twice_dir hS' hm] at hp hs
    by_contra hne
    rw [Finset.mem_singleton] at hne
    by_cases hd1 : d = 1
    · rw [if_pos hd1, shared_mkEntry] at hs
      exact absurd hs (by decide)
    · rw [if_neg hd1, small_absent hS hF (Finset.mem_range.mp hlt) hne] at hp
      cases hp
  have hcard := Finset.card_le_card hone
  have hroom := twice_free hS' hm
  have hfree := hF.free
  rw [Finset.card_singleton] at hcard
  rw [Supplied]
  omega

/-- The child of the first fork, which shares its stack, gets a page with two addresses, and its memory is torn down. -/
theorem freeMemUsr_tornDown_fork : ∃ m m', (m.tasks 0).isSome ∧ m.current = 1 ∧ shared (m.ram m.cr3 767) = true ∧
    HasPage m.ram m.cr3 767 1023 ∧ HasPage m.ram m.cr3 1 0 ∧ HasPage m.ram m.cr3 1 1 ∧
    pageOf m.ram m.cr3 1 0 = pageOf m.ram m.cr3 1 1 ∧ Returns (freeMemUsr allocPageFrame) m () m' ∧ TornDown m m' := by
  obtain ⟨f, t, L, m1, L1, m2, L2, K, a, fr, b, D, m, hS, hF, hrun⟩ := small_fork serves_allocPageFrame
  have hm := hF.sound'
  obtain ⟨f', t', hS'⟩ := exists_starts (hF.counted.idle hm.holds) (le_trans (by decide) hF.free)
  obtain ⟨hsound, hcounted⟩ := twice_sound hS' hm hF.counted (small_absent hS hF (by decide) (by decide))
  have hdir : ∀ d, d ≠ 1 → (m.twice f' t').ram m.cr3 d = m.ram m.cr3 d := fun d hd =>
    (twice_dir hS' hm.holds d).trans (if_neg hd)
  -- the stack page is where it was
  have hstack : HasPage m.ram m.cr3 767 1023 := hF.names.hasPage.mpr (hS.first_page small_sound.holds).1
  have hreach := hm.holds.reaches_table (by decide) hstack.2.2.1
  have htable : (m.twice f' t').ram (frameOf (m.ram m.cr3 767)) = m.ram (frameOf (m.ram m.cr3 767)) :=
    twice_of_ne hS' hm.holds (fun he => by
      have hrole := hm.holds.curSpace.table 767 (by decide) hstack.2.2.1
      rw [he, hm.holds.current_role] at hrole
      cases hrole) fun he => hS'.fresh.2.2.2.2.2.1 (he ▸ hreach)
  have hflag : shared (m.ram m.cr3 767) = true := by
    have huser := (hF.forked.user 767 (by decide)).2
    rw [← hF.forked.cr3] at huser
    rw [huser]
    simp
  obtain ⟨m', hr, ht⟩ := freeMemUsr_tornDown hsound (hsound.slack (by simp)) hcounted
    (twice_supplied hS hF hS')
  obtain ⟨hp0, hp1, hf0, hf1⟩ := twice_pages hS' hm.holds
  refine ⟨m.twice f' t', m', hsound.holds.init, hF.forked.current, ?_, ?_, hp0, hp1, hf0.trans hf1.symm, hr, ht⟩
  · exact (congrArg shared (hdir 767 (by decide))).trans hflag
  · have hpde := hdir 767 (by decide)
    have hcr3 : (m.twice f' t').cr3 = m.cr3 := rfl
    rw [HasPage, hcr3, hpde, htable]
    exact hstack

end Raampjes.Mm
