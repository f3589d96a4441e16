import Raampjes.Mm.NewPages
import Raampjes.Mm.Sbrk

/-!
# Heap faults

`pf_non_present` on an address of the heap. The page gets the flags for user mode, but a page table that is made on the
way does not, and the first page under it is mapped instead.

- `Resolved`: the page is there and the access succeeds on retry; `UserTable`: the page table is there, for user mode;
- `Filled.pde`: what becomes of the directory entry;
- `pfNonPresent_resolved`, `pfNonPresent_returns`: a heap fault is resolved exactly where the page table is;
- `heap_fault_resolved_iff`: the same in every state that a run reaches, and `Starts.grows` such a run.
-/

namespace Raampjes.Mm

open Progs Refs Runs

/-- The heap fault at `addr` is resolved. -/
structure Resolved (m m' : Machine) (addr : Nat) : Prop where
  /-- The page has a frame which was just taken. -/
  frame : ∃ f, walk m'.ram m'.cr3 addr = some f ∧ m.bitmap f = 0 ∧ ¬ Reaches m f
  dir : user (m'.pde addr) = true ∧ writable (m'.pde addr) = true
  entry : user (m'.pte addr) = true ∧ writable (m'.pte addr) = true
  retry : permits m' addr true = true
  pages : ∀ a, a < KERNEL_MEMORY → a / PAGE_SIZE ≠ addr / PAGE_SIZE → (walk m'.ram m'.cr3 a).isSome →
    (walk m.ram m.cr3 a).isSome

/-- The page table of `addr` is there; it is shared, or user mode can write to its pages. -/
def UserTable (m : Machine) (addr : Nat) : Prop :=
  present (m.pde addr) = true ∧ (shared (m.pde addr) = true ∨ user (m.pde addr) = true ∧ writable (m.pde addr) = true)

section Heap

variable {alloc : Kernel Nat} {m m' : Machine} {L L' : Layout} {T : Finset Nat} {a addr : Nat} {flags : Word} {u : Unit}

/-- The directory entry of a page that gets a frame: the one of a copy, or as it was. -/
theorem Filled.pde (hF : Filled alloc m L a flags m' L') (h : Sound m L T) (ha : a < KERNEL_MEMORY)
    (hp : present (m.pde a) = true) :
    (shared (m.pde a) = true → user (m'.ram m.cr3 (dirIndex a)) = true ∧ writable (m'.ram m.cr3 (dirIndex a)) = true) ∧
      (shared (m.pde a) = false → m'.ram m.cr3 (dirIndex a) = m.pde a) := by
  obtain ⟨f, fl, m1, L1, _, hlt, _, hfresh, hfl1, ho, rfl, rfl⟩ := hF
  obtain ⟨h1, l1⟩ := h.taken hfresh
  have hd := dirIndex_user ha
  obtain ⟨h2, l2⟩ := ho.sound h1 hd hfl1
  obtain ⟨hp2, _⟩ := ho.private_ h1 hd hfl1
  rw [← l2.same.cr3] at hp2
  have hcr3 : m1.cr3 = m.cr3 := l2.same.cr3
  have hrole := h2.holds.curSpace.table _ hd hp2
  have hword : (m1.mapped a f flags).ram m.cr3 (dirIndex a) = m1.ram m.cr3 (dirIndex a) := by
    rw [← hcr3]
    exact setWord_of_ne _ _ _ _ (Or.inl (ne_of_role h2.holds.current_role hrole (by simp)))
  rw [hword]
  cases ho with
  | made t hno ht htlt htfresh =>
    rw [Machine.pde] at hp
    rw [setCount_ram, setCount_cr3, hp] at hno
    cases hno
  | own hp' hs =>
    refine ⟨fun hs' => ?_, fun _ => rfl⟩
    rw [Machine.pde] at hs'
    rw [setCount_ram, setCount_cr3, hs'] at hs
    cases hs
  | copied K k new m3 hp' hs hK hk hnew hnlt hzero hnfresh =>
    refine ⟨fun _ => ?_, fun hs' => ?_⟩
    · have hpde := @unshared_pde _ (m.setCount f 1) _ K k (dirIndex a) new 6#32 h1.holds hK hd hp'
        ((Spot.window h1.holds hd hp').apart h1.holds hnfresh)
      rw [setCount_cr3] at hpde
      rw [hpde]
      simp
    · rw [Machine.pde] at hs'
      rw [setCount_ram, setCount_cr3, hs'] at hs
      cases hs

/-- **When a heap fault is resolved.** -/
theorem pfNonPresent_resolved (h : Sound m L T) (hT : T.card ≤ 8) (ha : addr < KERNEL_MEMORY)
    (hno : walk m.ram m.cr3 addr = none) (hA : Hands alloc m) (hA1 : ∀ f, Hands alloc (m.setCount f 1))
    (hr : Returns (pfNonPresent alloc addr) m u m') : Resolved m m' addr ↔ UserTable m addr := by
  obtain ⟨_, a, L', hau, hda, hpage, hF, hsame, hkernel⟩ := pfNonPresent_cases h hT ha hno hA hA1 hr
  obtain ⟨h', hl⟩ := hF.sound h hau plain_userRw hA1
  have hcr3 := hl.same.cr3
  have hpde : m.pde a = m.pde addr := by rw [Machine.pde, Machine.pde, hda]
  have hpde' : m'.pde addr = m'.ram m.cr3 (dirIndex a) := by rw [Machine.pde, hcr3, hda]
  constructor
  · intro hR
    have hp : present (m.pde addr) = true := by
      by_contra hp
      have hno := hkernel (Bool.not_eq_true _ ▸ hp)
      rw [← hda, ← hpde', hR.dir.1] at hno
      cases hno
    refine ⟨hp, ?_⟩
    cases hs : shared (m.pde addr) with
    | true => exact Or.inl rfl
    | false =>
      right
      have hkeep := (hF.pde h hau (hpde ▸ hp)).2 (hpde ▸ hs)
      rw [← hpde, ← hkeep, ← hpde']
      exact hR.dir
  · rintro ⟨hp, htable⟩
    have hat : a / PAGE_SIZE = addr / PAGE_SIZE := hsame hp
    obtain ⟨hd, hi⟩ := same_page_iff.mp hat
    have hdir : user (m'.pde addr) = true ∧ writable (m'.pde addr) = true := by
      obtain ⟨hcopy, hkeep⟩ := hF.pde h hau (hpde ▸ hp)
      rw [hpde] at hcopy hkeep
      rw [hpde']
      cases hs : shared (m.pde addr) with
      | true => exact hcopy hs
      | false =>
        rw [hkeep hs]
        exact htable.resolve_left (by rw [hs]; simp)
    obtain ⟨f, hlt, hzero, hfresh, hone⟩ := hF.pages h hau
    obtain ⟨hhas, hentry⟩ := (hone (dirIndex a) (pageTableIndex a)).1 ⟨rfl, rfl⟩
    have hpd : present (m'.pde addr) = true := by
      rw [hpde']
      exact hhas.2.2.1
    have hpte : m'.pte addr = mkEntry f (PG_USER ||| PG_RW ||| 1#32) := by
      rw [Machine.pte, hpde', ← hi]
      exact hentry
    have hw : walk m'.ram m'.cr3 addr = some f := by
      rw [walk_pte, hpd, hpte, present_mkEntry, frameOf_mkEntry hlt (by decide)]
      rfl
    have hflags : user (m'.pte addr) = true ∧ writable (m'.pte addr) = true := by
      rw [hpte, user_mkEntry, writable_mkEntry]
      exact ⟨by decide, by decide⟩
    refine ⟨⟨f, hw, hzero, hfresh⟩, hdir, hflags, ?_, fun a' ha' hne hsome => ?_⟩
    · have hq : present (m'.pte addr) = true := by
        rw [hpte]
        simp
      have hpermits : permits m' addr true = (present (m'.pde addr) && present (m'.pte addr) && user (m'.pde addr) &&
          user (m'.pte addr) && (!true || writable (m'.pde addr) && writable (m'.pte addr))) := rfl
      rw [hpermits, hpd, hq, hdir.1, hdir.2, hflags.1, hflags.2]
      rfl
    · obtain ⟨g, hg⟩ := Option.isSome_iff_exists.mp hsome
      obtain ⟨hhas', _⟩ := walk_user ha' hg
      rw [hcr3] at hhas'
      have hother : ¬ (dirIndex a' = dirIndex a ∧ pageTableIndex a' = pageTableIndex a) := fun he =>
        hne ((same_page_iff.mpr he).trans hat)
      have hold := ((hone _ _).2 hother).1.mp hhas'
      rw [walk_pte, (hasPage_iff ha').mp hold, if_pos rfl]
      rfl

end Heap

/-! ## Every reachable state -/

section Reachable

variable {m : Machine} {L : Layout} {T : Finset Nat} {addr : Nat}

/-- **`pf_non_present` returns** for an address of the heap when two frames are free. -/
theorem pfNonPresent_returns (h : Sound m L T) (hT : T.card ≤ 8) (ha : addr < KERNEL_MEMORY)
    (hheap : m.cur.codeEnd < addr ∧ addr ≤ m.cur.brk) (hno : walk m.ram m.cr3 addr = none)
    (hidle : ∀ f, m.bitmap f = 0 → ¬ Reaches m f) (hroom : 2 ≤ (freeFrames m).card) :
    ∃ m', Returns (pfNonPresent allocPageFrame addr) m () m' := by
  obtain ⟨g, hg⟩ : ∃ g, g ∈ freeFrames m := Finset.card_pos.mp (by omega)
  obtain ⟨hglt, hgzero⟩ := Finset.mem_filter.mp hg
  obtain ⟨f, hf⟩ := allocPageFrame_returns ⟨g, Finset.mem_range.mp hglt, hgzero⟩
  have hfresh := hidle f (allocPageFrame_ok hf).2.1
  obtain ⟨h1, _⟩ := h.taken hfresh
  have hidle1 := @idle_setCount m f hidle
  have hroom1 := room_setCount (f := f) hroom
  have hlast : ∀ {m'}, (∃ v, Returns (enterPage allocPageFrame f addr (PG_USER ||| PG_RW)) (m.setCount f 1) v m') →
      Returns (pfNonPresent allocPageFrame addr) m () m' := by
    rintro m' ⟨v, hv⟩
    rw [pfNonPresent, Returns.bind_iff ((gets_ok _).mpr ⟨rfl, rfl⟩), if_pos hheap]
    exact (bind_ok _ _ _).mpr ⟨v, m', (bind_ok _ _ _).mpr ⟨f, _, hf, hv⟩, pure_ok.mpr ⟨rfl, rfl⟩⟩
  cases hp : present (m.pde addr) with
  | true =>
    have hq : present (m.pte addr) = false := by
      rw [walk_pte, hp, Bool.true_and] at hno
      by_contra hq
      rw [if_pos (Bool.of_not_eq_false hq)] at hno
      cases hno
    have hv := (@getFreeAddress_own allocPageFrame _ (m.setCount f 1) addr _ h1.holds.env ha hp hq).mpr ⟨rfl, rfl⟩
    have hd := dirIndex_user ha
    have hi := pageTableIndex_lt addr
    have hbase : pageAddr (dirIndex addr) (pageTableIndex addr) < KERNEL_MEMORY := by
      rw [KERNEL_MEMORY, pageAddr]
      omega
    obtain ⟨v, m', hmap⟩ := @mapPage_returns (m.setCount f 1) _ T 7 _ f (PG_USER ||| PG_RW) h1 hT hbase plain_userRw hidle1 hroom1
    exact ⟨m', hlast ⟨v, (bind_ok _ _ _).mpr ⟨_, _, hv, hmap⟩⟩⟩
  | false =>
    have hbase : dirIndex addr * 2 ^ 22 < KERNEL_MEMORY := by
      have hd := dirIndex_user ha
      rw [KERNEL_MEMORY]
      omega
    have hdi : dirIndex (dirIndex addr * 2 ^ 22) = dirIndex addr := Nat.mul_div_cancel _ (by decide)
    have hpb : present ((m.setCount f 1).pde (dirIndex addr * 2 ^ 22)) = false := by
      rw [Machine.pde, hdi]
      exact hp
    have hA1 : Hands allocPageFrame (m.setCount f 1) := hands_of_counted fun g hr hz => hidle1 g hz hr
    have hnew : ∀ t m3, Returns allocPageFrame (m.setCount f 1) t m3 →
        t < 2 ^ 20 ∧ t ≠ (m.setCount f 1).cr3 ∧ m3 = (m.setCount f 1).setCount t 1 := by
      intro t m3 ht
      obtain ⟨h2, _, h3, h4⟩ := hA1.take ht
      exact ⟨h2, fun he => h4 (he ▸ h1.holds.reaches_cr3), h3⟩
    obtain ⟨t, ht⟩ := allocPageFrame_returns hroom1
    obtain ⟨htlt, _, _, htfresh⟩ := hA1.take ht
    have hpt := (addPageTable_ok h1.holds.env (user_lt hbase) hpb plain_three.lt hnew).mpr ⟨t, ht, rfl, rfl⟩
    have hv := (getFreeAddress_made h1.holds.env ha hp).mpr ⟨rfl, _, hpt⟩
    -- the table is there now, and private
    have ho : Opened allocPageFrame (m.setCount f 1) (L.use f .unused) (dirIndex (dirIndex addr * 2 ^ 22)) 3#32
        ((m.setCount f 1).addTable (dirIndex (dirIndex addr * 2 ^ 22)) t 3#32)
        ((L.use f .unused).use t (.table (dirIndex (dirIndex addr * 2 ^ 22)))) := .made t hpb ht htlt htfresh
    obtain ⟨h2, l2⟩ := ho.sound h1 (dirIndex_user hbase) plain_three
    obtain ⟨hp2, hs2⟩ := ho.private_ h1 (dirIndex_user hbase) plain_three
    rw [← l2.same.cr3] at hp2 hs2
    have hmap := (@mapPage_ok allocPageFrame (copyPageTable allocPageFrame stackDepth) _ _ _ f _
      (PG_USER ||| PG_RW) h2.holds.env (user_lt hbase) hp2 hs2).mpr ⟨rfl, rfl⟩
    exact ⟨_, hlast ⟨_, (bind_ok _ _ _).mpr ⟨_, _, hv, hmap⟩⟩⟩

/-- **When a heap fault is resolved**, in every state that a run reaches. -/
theorem heap_fault_resolved_iff {alloc : Kernel Nat} {img : Image} {tag : MmapTag} {table : FrameTable}
    {ram : Nat → Nat → Word} {xs : List (Step Machine Act Empty)} (hA : ∀ m, Hands alloc m)
    (hrun : Run (step alloc) (boot img tag table ram) xs m) (hC : ∀ x ∈ xs, x.act.Proper x.before)
    (hidle : ∀ f, m.bitmap f = 0 → ¬ Reaches m f) (hheap : m.cur.codeEnd < addr ∧ addr ≤ m.cur.brk)
    (hno : walk m.ram m.cr3 addr = none) :
    (∀ u m', Returns (pfNonPresent allocPageFrame addr) m u m' → (Resolved m m' addr ↔ UserTable m addr)) ∧
      (2 ≤ (freeFrames m).card → ∃ m', Returns (pfNonPresent allocPageFrame addr) m () m') := by
  obtain ⟨⟨L, h⟩, hb⟩ := run_sound hA hrun hC
  have hT : (∅ : Finset Nat).card ≤ 8 := by simp
  have ha : addr < KERNEL_MEMORY := by
    refine lt_of_le_of_ne (le_trans hheap.2 hb.cur.1) ?_
    rintro rfl
    rw [h.holds.curDir.walk_low h.holds (le_refl _) (by decide)] at hno
    cases hno
  have hA0 : Hands allocPageFrame m := hands_of_counted fun g hr hz => hidle g hz hr
  have hA1 : ∀ f, Hands allocPageFrame (m.setCount f 1) := fun f =>
    hands_of_counted fun g hr hz => @idle_setCount m f hidle g hz hr
  exact ⟨fun u m' hr => pfNonPresent_resolved h hT ha hno hA0 hA1 hr, pfNonPresent_returns h hT ha hheap hno hidle⟩

end Reachable

/-! ## A heap up to the stack -/

/-- A task without an image, whose heap may grow up to its stack page. -/
structure Roomy (m : Machine) : Prop where
  heap : m.cur.codeEnd = 0 ∧ m.cur.brk = 0xBFFFE000
  idle : ∀ g, m.bitmap g = 0 → ¬ Reaches m g
  room : 2 ≤ (freeFrames m).card
  missing : ∀ addr, addr < KERNEL_MEMORY - PAGE_SIZE → walk m.ram m.cr3 addr = none
  stack : ∀ addr, dirIndex addr = 767 → UserTable m addr
  empty : ∀ addr, dirIndex addr < 767 → present (m.pde addr) = false

theorem step_sbrk {alloc : Kernel Nat} {m : Machine} {incr : Int} (hrun : m.cur.state = .running)
    (hf : Fits m.cur ((m.cur.brk + incr) % 2 ^ 32)) : step alloc m (.sbrk incr) =
      some (m.setCur { m.cur with brk := ((m.cur.brk + incr) % 2 ^ 32).toNat }, []) :=
  step_ok.mpr ⟨decide_eq_true hrun, (bind_ok _ _ _).mpr ⟨_, _, doSbrk_grows hf, pure_ok.mpr ⟨rfl, rfl⟩⟩⟩

/-- The first program, and two calls that move its break. -/
theorem Starts.grows {f t : Nat} (hS : Starts smallBoot f t) : ∃ xs, Run (step allocUnreferenced) smallBoot xs
    ((smallBoot.stacked f t).setCur { smallBoot.cur.started with brk := 0xBFFFE000 }) ∧
      ∀ x ∈ xs, x.act.Proper x.before := by
  have hexec := hS.execve
  have hgrow : ∀ brk : Nat, brk + 0x5FFFF000 < 0xBFFFF000 → step allocUnreferenced
      ((smallBoot.stacked f t).setCur { smallBoot.cur.started with brk := brk }) (.sbrk 0x5FFFF000) =
        some ((smallBoot.stacked f t).setCur { smallBoot.cur.started with brk := brk + 0x5FFFF000 }, []) := by
    intro brk hbrk
    have hmod : ((brk : Int) + 0x5FFFF000) % 2 ^ 32 = brk + 0x5FFFF000 := Int.emod_eq_of_lt (by omega) (by omega)
    have hcode : smallBoot.cur.started.codeEnd = 0 := rfl
    have hstack : smallBoot.cur.started.stackStart = 0xBFFFF000 := rfl
    have hst := @step_sbrk allocUnreferenced ((smallBoot.stacked f t).setCur { smallBoot.cur.started with brk := brk })
      0x5FFFF000 (by rw [setCur_cur]; rfl) (by
        rw [setCur_cur, Fits]
        dsimp only
        rw [hmod, hcode, hstack]
        omega)
    rw [hst, setCur_cur]
    dsimp only
    rw [hmod]
    simp only [Machine.setCur, Function.update_idem]
    rfl
  have h1 := hgrow 0 (by decide)
  have h2 := hgrow 0x5FFFF000 (by decide)
  refine ⟨_, Run.snoc (Run.snoc (Run.snoc Run.refl hexec) h1) h2, fun x hx => ?_⟩
  simp only [List.nil_append, List.cons_append, List.mem_cons, List.not_mem_nil, or_false] at hx
  rcases hx with rfl | rfl | rfl
  · exact blankElf_below
  · trivial
  · trivial

theorem Starts.roomy {f t : Nat} (hS : Starts smallBoot f t) :
    Roomy ((smallBoot.stacked f t).setCur { smallBoot.cur.started with brk := 0xBFFFE000 }) := by
  have hsound : Sound smallBoot (bootLayout smallImage) ∅ :=
    boot_sound smallImage alignedMap ⟨fun _ => 0, []⟩ fun _ _ => 0#32
  have hno : ∀ d, d < 768 → present (smallBoot.ram smallBoot.cr3 d) = false := fun d hd =>
    boot_absent smallImage alignedMap ⟨fun _ => 0, []⟩ (fun _ _ => 0#32) hd
  have hdir := hS.dir hsound.holds
  have hF := @Starts.filled smallBoot (bootLayout smallImage) f t hS (hno 767 (by decide))
  obtain ⟨h', hl⟩ := hF.sound hsound (by decide) plain_userRw fun f => hands_unreferenced _
  refine ⟨⟨by rw [setCur_cur]; rfl, by rw [setCur_cur]⟩, fun g hz hr => ?_, ?_, fun addr ha => ?_, fun addr ha => ?_,
    fun addr ha => ?_⟩
  · have hsame : SameTasks (smallBoot.stacked f t)
        ((smallBoot.stacked f t).setCur { smallBoot.cur.started with brk := 0xBFFFE000 }) :=
      sameTasks_setCur h'.holds.cur rfl
    exact hS.idle hsound boot_counted (hno 767 (by decide)) hz (hsame.reaches rfl hr)
  · have hkeep : Finset.Ico 2000 2016 \ {f, t} ⊆ freeFrames (smallBoot.stacked f t) := by
      intro g hg
      obtain ⟨hg, hne⟩ := Finset.mem_sdiff.mp hg
      obtain ⟨hlt, hzero⟩ := Finset.mem_filter.mp (small_freeFrames (fun _ _ => 0#32) hg)
      simp only [Finset.mem_insert, Finset.mem_singleton, not_or] at hne
      exact Finset.mem_filter.mpr ⟨hlt, (hS.bitmap hsound.holds hne.1 hne.2).trans hzero⟩
    have hcard := Finset.card_le_card hkeep
    have htwo : ({f, t} : Finset Nat).card ≤ 2 := Finset.card_le_two
    have hsub := Finset.le_card_sdiff ({f, t} : Finset Nat) (Finset.Ico 2000 2016)
    have hico : (Finset.Ico 2000 2016).card = 16 := by decide
    show 2 ≤ (freeFrames (smallBoot.stacked f t)).card
    omega
  · obtain ⟨_, _, _, _, hone⟩ := hF.pages hsound (by decide)
    by_contra hsome
    obtain ⟨g, hg⟩ := Option.ne_none_iff_exists'.mp hsome
    have huser : addr < KERNEL_MEMORY := lt_of_lt_of_le ha (Nat.sub_le _ _)
    have hother : ¬ (dirIndex addr = dirIndex (KERNEL_MEMORY - PAGE_SIZE) ∧
        pageTableIndex addr = pageTableIndex (KERNEL_MEMORY - PAGE_SIZE)) := fun he => by
      have hpage := same_page_iff.mpr he
      rw [KERNEL_MEMORY, PAGE_SIZE] at *
      omega
    obtain ⟨_, _, hp, _⟩ := ((hone _ _).2 hother).1.mp (walk_user huser hg).1
    rw [hno _ (dirIndex_user huser)] at hp
    cases hp
  · have hword := hdir (dirIndex addr)
    rw [if_pos ha] at hword
    have hpde : ((smallBoot.stacked f t).setCur { smallBoot.cur.started with brk := 0xBFFFE000 }).pde addr =
        mkEntry t (PG_USER ||| PG_RW ||| 3#32) := hword
    rw [UserTable, hpde, user_mkEntry, writable_mkEntry]
    exact ⟨by simp, Or.inr ⟨by decide, by decide⟩⟩
  · have hword := hdir (dirIndex addr)
    rw [if_neg (by omega)] at hword
    have hpde : ((smallBoot.stacked f t).setCur { smallBoot.cur.started with brk := 0xBFFFE000 }).pde addr =
        smallBoot.ram smallBoot.cr3 (dirIndex addr) := hword
    rw [hpde]
    exact hno _ (by omega)

/-- **A heap that ends at the stack is reached**, from the start. -/
theorem roomy_run : ∃ xs m, Run (step allocUnreferenced) smallBoot xs m ∧ (∀ x ∈ xs, x.act.Proper x.before) ∧
    Roomy m := by
  have hroom : 2 ≤ (freeFrames smallBoot).card :=
    le_trans (by decide) (Finset.card_le_card (small_freeFrames fun _ _ => 0#32))
  obtain ⟨f, t, hS⟩ : ∃ f t, Starts smallBoot f t := boot_starts hroom
  obtain ⟨xs, hrun, hC⟩ := hS.grows
  exact ⟨xs, _, hrun, hC, hS.roomy⟩

/-- Under the page table of the stack a heap fault is resolved. -/
theorem heap_fault_resolved_stack : ∃ xs m m', Run (step allocUnreferenced) smallBoot xs m ∧
    m.cur.codeEnd < 0xBFFFE000 ∧ 0xBFFFE000 ≤ m.cur.brk ∧
    Returns (pfNonPresent allocPageFrame 0xBFFFE000) m () m' ∧ Resolved m m' 0xBFFFE000 := by
  obtain ⟨xs, m, hrun, hC, hm⟩ := roomy_run
  obtain ⟨hcode, hbrk⟩ := hm.heap
  have hheap : m.cur.codeEnd < 0xBFFFE000 ∧ 0xBFFFE000 ≤ m.cur.brk := ⟨by rw [hcode]; decide, by rw [hbrk]⟩
  obtain ⟨hiff, hret⟩ := heap_fault_resolved_iff hands_unreferenced hrun hC hm.idle hheap (hm.missing _ (by decide))
  obtain ⟨m', hr⟩ := hret hm.room
  exact ⟨xs, m, m', hrun, hheap.1, hheap.2, hr, (hiff () m' hr).mpr (hm.stack _ (by decide))⟩

/-- Without a page table another page is mapped, out of reach of user mode. -/
theorem heap_fault_unresolved : ∃ xs m m', Run (step allocUnreferenced) smallBoot xs m ∧
    (∀ x ∈ xs, x.act.Proper x.before) ∧ m.cur.codeEnd < 0x500000 ∧ 0x500000 ≤ m.cur.brk ∧
    walk m.ram m.cr3 0x500000 = none ∧ Returns (pfNonPresent allocPageFrame 0x500000) m () m' ∧
    ¬ Resolved m m' 0x500000 := by
  obtain ⟨xs, m, hrun, hC, hm⟩ := roomy_run
  obtain ⟨hcode, hbrk⟩ := hm.heap
  obtain ⟨⟨L, h⟩, _⟩ := run_sound hands_unreferenced hrun hC
  have hT : (∅ : Finset Nat).card ≤ 8 := by simp
  have hheap : m.cur.codeEnd < 0x500000 ∧ 0x500000 ≤ m.cur.brk := ⟨by rw [hcode]; decide, by rw [hbrk]; decide⟩
  have hnone := hm.missing 0x500000 (by decide)
  obtain ⟨m', hr⟩ := pfNonPresent_returns h hT (by decide) hheap hnone hm.idle hm.room
  have hA : Hands allocPageFrame m := hands_of_counted fun g hr hz => hm.idle g hz hr
  have hA1 : ∀ f, Hands allocPageFrame (m.setCount f 1) := fun f =>
    hands_of_counted fun g hr hz => @idle_setCount m f hm.idle g hz hr
  refine ⟨xs, m, m', hrun, hC, hheap.1, hheap.2, hnone, hr, fun hR => ?_⟩
  have htable := ((pfNonPresent_resolved h hT (by decide) hnone hA hA1 hr).mp hR).1
  rw [hm.empty _ (by decide)] at htable
  cases htable

end Raampjes.Mm
