import Raampjes.Mm.Heap
import Raampjes.Mm.UserBytes

/-!
# Copy on write keeps the tasks apart

- `Guarded`: user mode cannot write to a page whose frame another task has, too;
- `Sourced`: where the frames of the running task's pages come from; `Guarded.change` uses it, `Filled.sourced`,
  `Split.sourced` and `Replaced.sourced` are its cases;
- `Forked.guarded`: a fork protects what it shares;
- `Act.Tame`: the accesses that keep to this; `step_private`: one step;
- `memories_private`: so the tasks have a memory each.
-/

namespace Raampjes.Mm

open Progs Memories Runs Sched

/-- User mode can write to the page, as far as the two flags for writing say. -/
def Exposed (ram : Nat → Nat → Word) (D d i : Nat) : Prop :=
  writable (ram D d) = true ∧ writable (pteAt ram D d i) = true

/-- **The invariant of copy on write**: a page that user mode can write to has a frame of its own. -/
def Guarded (m : Machine) : Prop :=
  ∀ p q D E, IsDirectory m p D → IsDirectory m q E → p ≠ q → ∀ d i d' i', HasPage m.ram D d i → HasPage m.ram E d' i' →
    pageOf m.ram D d i = pageOf m.ram E d' i' → ¬ Exposed m.ram D d i

/-- A page of the running task with a frame of another task has taken it from a page that it had before, and is exposed
only if that was. -/
def Sourced (c c' : Machine × Layout) : Prop :=
  ∀ d i, HasPage c'.1.ram c.1.cr3 d i → Foreign c.1 c.2 (pageOf c'.1.ram c.1.cr3 d i) →
    ∃ d₀ i₀, HasPage c.1.ram c.1.cr3 d₀ i₀ ∧ pageOf c.1.ram c.1.cr3 d₀ i₀ = pageOf c'.1.ram c.1.cr3 d i ∧
      (Exposed c'.1.ram c.1.cr3 d i → Exposed c.1.ram c.1.cr3 d₀ i₀)

section Guarded

variable {alloc : Kernel Nat} {m m' m1 : Machine} {L L' L1 : Layout} {T : Finset Nat} {D E a d f i p q new : Nat}
  {flags : Word}

theorem SameSpace.exposed {ram ram' : Nat → Nat → Word} (hs : SameSpace ram ram' D) (hp : HasPage ram D d i) :
    Exposed ram' D d i ↔ Exposed ram D d i := by
  obtain ⟨hd, htab⟩ := hs d hp.1
  rw [Exposed, Exposed, pteAt, pteAt, hd, htab hp.2.2.1 i hp.2.1]

/-- **A change of the running task** whose pages have their frames from before, or for themselves. -/
theorem Guarded.change (hG : Guarded m) (h : Holds m L) (h' : Holds m' L') (hl : Local m L m' L')
    (hs : Sourced (m, L) (m', L')) : Guarded m' := by
  intro p q D E hD hE hpq d i d' i' hp hq heq hx
  have hback : ∀ {r F}, IsDirectory m' r F → IsDirectory m r F := fun {r F} hF => by
    rw [isDirectory_iff h'] at hF
    rw [isDirectory_iff h, ← hl.same.isSome, ← hl.dir]
    exact hF
  have hDm := hback hD
  have hEm := hback hE
  have hO := hl.othersKept h fun _ _ _ hF => hl.isDirectory h h' hF
  have hcur : ∀ {F}, IsDirectory m m.current F → F = m.cr3 := fun hF => by
    rw [h.cr3]
    exact ((isDirectory_iff h).mp hF).2
  -- a page of another task is as it was, and its frame is foreign
  have hsame : ∀ {r F e j}, r ≠ m.current → IsDirectory m r F → HasPage m'.ram F e j →
      HasPage m.ram F e j ∧ pageOf m'.ram F e j = pageOf m.ram F e j ∧ Foreign m L (pageOf m.ram F e j) := by
    intro r F e j hr hF hpage
    have hspace := hO.space r F hr hF
    have hpage' := hspace.hasPage.mp hpage
    obtain ⟨hsome, rfl⟩ := (isDirectory_iff h).mp hF
    obtain ⟨t, ht⟩ := Option.isSome_iff_exists.mp hsome
    exact ⟨hpage', hspace.pageOf hpage', r, t, ht, hr, Or.inr (Or.inr ⟨e, j, hpage', rfl⟩)⟩
  by_cases hpc : p = m.current
  · subst hpc
    obtain rfl := hcur hDm
    obtain ⟨hq0, hframe, hforeign⟩ := hsame (Ne.symm hpq) hEm hq
    rw [hframe] at heq
    obtain ⟨d₀, i₀, hp0, heq0, hx0⟩ := hs d i hp (heq ▸ hforeign)
    exact hG _ _ _ _ hDm hEm hpq d₀ i₀ d' i' hp0 hq0 (heq0.trans heq) (hx0 hx)
  · obtain ⟨hp0, hframe, hforeign⟩ := hsame hpc hDm hp
    have hx0 := ((hO.space p D hpc hDm).exposed hp0).mp hx
    rw [hframe] at heq
    by_cases hqc : q = m.current
    · subst hqc
      obtain rfl := hcur hEm
      obtain ⟨d₀, i₀, hq0, heq0, _⟩ := hs d' i' hq (heq ▸ hforeign)
      exact hG _ _ _ _ hDm hEm hpq d i d₀ i₀ hp0 hq0 (heq.trans heq0.symm) hx0
    · obtain ⟨hq0, hframe', _⟩ := hsame hqc hEm hq
      exact hG _ _ _ _ hDm hEm hpq d i d' i' hp0 hq0 (heq.trans hframe') hx0

/-- A page that user mode can write to is no other task's. -/
theorem Guarded.not_foreign (hG : Guarded m) (h : Holds m L) (hp : HasPage m.ram m.cr3 d i) (hx : Exposed m.ram m.cr3 d i) :
    ¬ Foreign m L (pageOf m.ram m.cr3 d i) := by
  rintro ⟨q, t, ht, hq, hf⟩
  have hrole := h.curSpace.page d i hp
  have hT := h.task q t ht
  rcases hf with hf | ⟨d', hd', hp', hf⟩ | ⟨d', i', hp', hf⟩
  · rw [hf, hT.role] at hrole
    cases hrole
  · rw [hf, hT.spaceOk.table d' hd' hp'] at hrole
    cases hrole
  · have hD : IsDirectory m m.current m.cr3 := (isDirectory_iff h).mpr ⟨h.cur, h.cr3⟩
    have hE : IsDirectory m q (L.dir q) := (isDirectory_iff h).mpr ⟨by rw [ht]; rfl, rfl⟩
    exact hG _ _ _ _ hD hE (Ne.symm hq) d i d' i' hp hp' hf hx

/-! ## Where the frames of the pages come from -/

theorem sourced_of_samePages (hs : SamePages m.ram m'.ram m.cr3) (hw : ∀ d, d < 768 → m'.ram m.cr3 d = m.ram m.cr3 d) :
    Sourced (m, L) (m', L') := by
  intro d i hp _
  have hp0 := (hs d i).1.mp hp
  refine ⟨d, i, hp0, ?_, ?_⟩
  · exact congrArg frameOf ((hs d i).2 hp0).symm
  · rintro ⟨hx, hx'⟩
    rw [hw d hp.1] at hx
    rw [(hs d i).2 hp0] at hx'
    exact ⟨hx, hx'⟩

/-- Pages that no other task has. -/
theorem sourced_of_private (hl : Local m L m' L') (hp : Private (m', L')) : Sourced (m, L) (m', L') := by
  intro d i hpage hf
  have hcr3 : m'.cr3 = m.cr3 := hl.same.cr3
  exact absurd (hl.foreign_iff.mpr hf) (hcr3 ▸ hp d i (hcr3.symm ▸ hpage))

/-- The directory entries of the other tables stay. -/
theorem Filled.dir_of_ne (hF : Filled alloc m L a flags m' L') (h : Sound m L T) (ha : a < KERNEL_MEMORY)
    (hd : d ≠ dirIndex a) : m'.ram m.cr3 d = m.ram m.cr3 d := by
  obtain ⟨g, fl, m1, L1, _, _, _, hfresh, hfl, ho, rfl, rfl⟩ := hF
  obtain ⟨h1, _⟩ := h.taken hfresh
  have hda := dirIndex_user ha
  obtain ⟨h2, l2⟩ := ho.sound h1 hda hfl
  obtain ⟨hp2, _⟩ := ho.private_ h1 hda hfl
  have hcr3 : m1.cr3 = m.cr3 := l2.same.cr3
  rw [← l2.same.cr3] at hp2
  have hne : m1.cr3 ≠ frameOf (m1.pde a) :=
    ne_of_role h2.holds.current_role (h2.holds.curSpace.table _ hda hp2) (by simp)
  rw [← hcr3, Machine.mapped, setWord_of_ne _ _ _ _ (Or.inl hne), hcr3]
  exact ho.dir h1 hda hd

/-- A page table that is made, or that the task has for itself, exposes no page of the others. -/
theorem Filled.sourced (hF : Filled alloc m L a flags m' L') (h : Sound m L T) (ha : a < KERNEL_MEMORY)
    (hs : present (m.pde a) = true → shared (m.pde a) = false) (hfl : Plain flags) : Sourced (m, L) (m', L') := by
  obtain ⟨g, hlt, _, hfresh, hone⟩ := hF.pages h ha
  intro d i hp hf
  by_cases hat : d = dirIndex a ∧ i = pageTableIndex a
  · -- the frame of the new page was not reached
    have hpte := ((hone d i).1 hat).2
    have hg : pageOf m'.ram m.cr3 d i = g := by
      rw [pageOf_eq, hpte, frameOf_mkEntry hlt (hfl.or plain_one).lt]
    exact absurd (Foreign.reaches h.holds hf) (hg ▸ hfresh)
  · obtain ⟨hiff, heq⟩ := (hone d i).2 hat
    have hp0 : HasPage m.ram m.cr3 d i := hiff.mp hp
    refine ⟨d, i, hp0, congrArg frameOf (heq hp0).symm, ?_⟩
    rintro ⟨hx, hx'⟩
    rw [heq hp0] at hx'
    refine ⟨?_, hx'⟩
    by_cases hd : d = dirIndex a
    · subst hd
      have hpde : present (m.pde a) = true := hp0.2.2.1
      rw [(hF.pde h ha hpde).2 (hs hpde)] at hx
      exact hx
    · rw [hF.dir_of_ne h ha hd] at hx
      exact hx

/-- A shared page table that is copied has protected entries. -/
theorem Split.sourced (ho : Split alloc m L d m1 L1) (h : Sound m L T) (hd : d < 768)
    (hp : present (m.ram m.cr3 d) = true) : Sourced (m, L) (m1, L1) := by
  have hE := ho.entries h hd hp
  intro e i hpage _
  have hpde : present (m.ram m.cr3 e) = true := by
    by_cases hed : e = d
    · rw [hed]
      exact hp
    · exact hE.dir e hed ▸ hpage.2.2.1
  -- the entry is that of the page before, perhaps protected
  by_cases hed : e = d
  · subst hed
    have hentry := hE.table i hpage.2.1
    have hq : present (pteAt m1.ram m.cr3 e i) = true := hpage.2.2.2
    by_cases hc : cowDir (m.ram m.cr3 e) = true
    · rw [if_pos hc] at hentry
      rw [hentry, present_cowPage] at hq
      refine ⟨e, i, ⟨hpage.1, hpage.2.1, hp, hq⟩, ?_, ?_⟩
      · rw [pageOf_eq, pageOf_eq, hentry, frameOf_cowPage]
      · rintro ⟨_, hx⟩
        rw [hentry, writable_cowPage] at hx
        cases hx
    · have hsame : m1 = m := by
        cases ho with
        | own _ => rfl
        | copied K k new m2 hc' => exact absurd hc' hc
      subst hsame
      exact ⟨e, i, hpage, rfl, id⟩
  · have hentry := hE.rest e i hpage.1 hed hpde
    have hq : present (pteAt m1.ram m.cr3 e i) = true := hpage.2.2.2
    rw [hentry] at hq
    refine ⟨e, i, ⟨hpage.1, hpage.2.1, hpde, hq⟩, ?_, ?_⟩
    · rw [pageOf_eq, pageOf_eq, hentry]
    · rintro ⟨hx, hx'⟩
      rw [hE.dir e hed] at hx
      rw [hentry] at hx'
      exact ⟨hx, hx'⟩

/-- A page that is replaced has a frame that was not reached. -/
theorem Replaced.sourced (hR : Replaced m m' L a new) (h : Holds m L) (hlt : new < 2 ^ 20) (hfresh : ¬ Reaches m new) :
    Sourced (m, L) (m', L') := by
  intro d i hp hf
  have hpde : present (m.ram m.cr3 d) = true := hR.dir d ▸ hp.2.2.1
  by_cases hat : d = dirIndex a ∧ i = pageTableIndex a
  · have hg : pageOf m'.ram m.cr3 d i = new := by
      rw [pageOf_eq, hat.1, hat.2, hR.entry, frameOf_mkEntry hlt (by decide)]
    exact absurd (Foreign.reaches h hf) (hg ▸ hfresh)
  · have hentry := hR.rest d i hp.1 hpde hat
    have hq : present (pteAt m'.ram m.cr3 d i) = true := hp.2.2.2
    rw [hentry] at hq
    refine ⟨d, i, ⟨hp.1, hp.2.1, hpde, hq⟩, ?_, ?_⟩
    · rw [pageOf_eq, pageOf_eq, hentry]
    · rintro ⟨hx, hx'⟩
      rw [hR.dir d] at hx
      rw [hentry] at hx'
      exact ⟨hx, hx'⟩

theorem Sourced.trans {m2 : Machine} {L2 : Layout} (h1 : Sourced (m, L) (m1, L1)) (hl : Local m L m1 L1)
    (h2 : Sourced (m1, L1) (m2, L2)) : Sourced (m, L) (m2, L2) := by
  have hcr3 : m1.cr3 = m.cr3 := hl.same.cr3
  intro d i hp hf
  obtain ⟨d₁, i₁, hp1, heq1, hx1⟩ := h2 d i (hcr3.symm ▸ hp) (hl.foreign_iff.mpr (hcr3.symm ▸ hf))
  dsimp only at hp1 heq1 hx1
  rw [hcr3] at hp1 heq1 hx1
  obtain ⟨d₀, i₀, hp0, heq0, hx0⟩ := h1 d₁ i₁ hp1 (heq1.symm ▸ hf)
  exact ⟨d₀, i₀, hp0, heq0.trans heq1, hx0 ∘ hx1⟩

/-- **What a page fault does**: the running task gets pages, loses no byte, and exposes no frame of another task. -/
structure Extended (c c' : Machine × Layout) : Prop where
  kept : Local c.1 c.2 c'.1 c'.2
  sourced : Sourced c c'
  bytes : Extends (userMemory c.1.ram c.1.cr3) (userMemory c'.1.ram c.1.cr3)

theorem Extended.trans {m2 : Machine} {L2 : Layout} (h1 : Extended (m, L) (m1, L1)) (h2 : Extended (m1, L1) (m2, L2)) :
    Extended (m, L) (m2, L2) := by
  refine ⟨h1.kept.trans h2.kept, h1.sourced.trans h1.kept h2.sourced, h1.bytes.trans ?_⟩
  have hcr3 : m1.cr3 = m.cr3 := h1.kept.same.cr3
  have hb := h2.bytes
  dsimp only at hb ⊢
  rw [hcr3] at hb
  exact hb

theorem Extended.guarded (hX : Extended (m, L) (m', L')) (hG : Guarded m) (h : Holds m L) (h' : Holds m' L') : Guarded m' :=
  hG.change h h' hX.kept hX.sourced

/-- A new page, under a page table that no other task has. -/
theorem Filled.extended (hF : Filled allocPageFrame m L a flags m' L') (hB : Booked m L) (ha : a < KERNEL_MEMORY)
    (hfl : Plain flags) (hno : ¬ HasPage m.ram m.cr3 (dirIndex a) (pageTableIndex a))
    (hs : present (m.pde a) = true → shared (m.pde a) = false) : Sound m' L' ∅ ∧ Extended (m, L) (m', L') := by
  obtain ⟨h, hc⟩ := hB
  obtain ⟨h', hl⟩ := hF.sound h ha hfl (hc.hands_taken h.holds)
  exact ⟨h', hl, hF.sourced h ha hs hfl, hF.extends h ha hno⟩

/-- **A heap page that is not there yet.** -/
theorem pfNonPresent_extended {u : Unit} (hB : Booked m L) (ha : a < KERNEL_MEMORY) (hw : walk m.ram m.cr3 a = none)
    (hs : present (m.pde a) = true → shared (m.pde a) = false) (hr : Returns (pfNonPresent allocPageFrame a) m u m') :
    ∃ L', Sound m' L' ∅ ∧ Extended (m, L) (m', L') := by
  obtain ⟨h, hc⟩ := hB
  obtain ⟨_, c, L', hc', hdir, hno, hF, _⟩ :=
    pfNonPresent_cases h (by simp) ha hw (hc.hands h.holds) (hc.hands_taken h.holds) hr
  have hpde : m.pde c = m.pde a := by rw [Machine.pde, Machine.pde, hdir]
  exact ⟨L', hF.extended ⟨h, hc⟩ hc' plain_userRw hno (hpde ▸ hs)⟩

/-- **A write to a protected page.** -/
theorem pfRoViolation_extended {u : Unit} (hB : Booked m L) (ha : a < KERNEL_MEMORY)
    (hpage : HasPage m.ram m.cr3 (dirIndex a) (pageTableIndex a)) (hr : Returns (pfRoViolation allocPageFrame a) m u m') :
    ∃ L', Sound m' L' ∅ ∧ Extended (m, L) (m', L') := by
  obtain ⟨h, hc⟩ := hB
  have hsplit : ∀ m1 L1, Split allocPageFrame m L (dirIndex a) m1 L1 → Hands allocPageFrame m1 := fun m1 L1 ho =>
    (ho.counted h hc hpage.1 hpage.2.2.1).hands (ho.sound h hpage.1 hpage.2.2.1).1.holds
  obtain ⟨_, _, m1, L1, K, k, new, _, ho, hK, hk, _, hlt, _, hfresh, rfl⟩ :=
    pfRoViolation_cases h (by simp) ha hpage (hc.hands h.holds) hsplit hr
  obtain ⟨h1, hl1⟩ := ho.sound h hpage.1 hpage.2.2.1
  have hX1 : Extended (m, L) (m1, L1) :=
    ⟨hl1, ho.sourced h hpage.1 hpage.2.2.1, ho.extends h hpage.1 hpage.2.2.1⟩
  obtain ⟨hpage1, hs1, _⟩ := ho.page h hpage
  rw [← hl1.same.cr3] at hpage1 hs1
  have hR := @replaced m1 L1 ∅ K k a new 2#32 h1 hK ha hpage1 hs1 hfresh
  obtain ⟨h2, hl2⟩ := @Sound.unsharedPage _ m1 L1 ∅ K k a new 2#32 h1 hK hk (user_lt ha) hpage1 hs1 hlt hfresh
  have hX2 : Extended (m1, L1) (m1.unshared K k a new 2#32, L1.use new .data) :=
    ⟨hl2, hR.sourced h1.holds hlt hfresh, hR.extends h1.holds hpage1 hlt⟩
  exact ⟨_, h2, hX1.trans hX2⟩

/-! ## Fork -/

section Fork

variable {child : TaskStruct} (hF : Forked m L m' L' p child) (h : Holds m L)

include hF h

/-- The user half of a task that does not fork. -/
theorem Forked.space {t : TaskStruct} (ht : m.tasks q = some t) (hq : q ≠ m.current) : SameSpace m.ram m'.ram (L.dir q) := by
  have hT := h.task q t ht
  have hword : ∀ g, Reaches m g → L.role g ≠ .kernelTable → L.role g ≠ .dir m.current → m'.ram g = m.ram g := fun g hg hk hc =>
    hF.rest g hg hk fun he => hc (he ▸ h.current_role)
  refine fun d hd => ⟨congrFun (hword _ (h.reaches_dir ht) ?_ ?_) d, fun hp i _ =>
    congrFun (hword _ (h.reaches_window ht (by omega) hp) ?_ ?_) i⟩
  · rw [hT.role]
    simp
  · rw [hT.role]
    simp [hq]
  · rw [hT.spaceOk.table d hd hp]
    simp
  · rw [hT.spaceOk.table d hd hp]
    simp

/-- The contents of the pages stay. -/
theorem Forked.contents {t : TaskStruct} (ht : m.tasks q = some t) (hp : HasPage m.ram (L.dir q) d i) :
    m'.ram (pageOf m.ram (L.dir q) d i) = m.ram (pageOf m.ram (L.dir q) d i) := by
  have hrole := (h.task q t ht).spaceOk.page d i hp
  refine hF.rest _ (h.reaches_page ht hp) ?_ fun he => ?_
  · rw [hrole]
    simp
  · rw [he, h.current_role] at hrole
    cases hrole

/-- The tasks after a fork, with the directory that each had, or that the child has from its parent. -/
theorem Forked.origin (h' : Holds m' L') (hD : IsDirectory m' q D) :
    (q = p ∨ q = m.current) ∧ SameNames m.ram m.cr3 m'.ram D ∧ (∀ d, d < 768 → writable (m'.ram D d) = false) ∨
      (q ≠ p ∧ q ≠ m.current) ∧ IsDirectory m q D ∧ SameSpace m.ram m'.ram D := by
  obtain ⟨hsome, rfl⟩ := (isDirectory_iff h').mp hD
  obtain ⟨hn, hnc⟩ := hF.names h
  by_cases hq : q = p
  · subst hq
    refine Or.inl ⟨Or.inl rfl, hnc, fun d hd => ?_⟩
    rw [(hF.user d hd).2, writable_cowEntry]
  · have hdir := hF.dir q hq
    rw [hF.tasks, Function.update_of_ne hq] at hsome
    obtain ⟨t, ht⟩ := Option.isSome_iff_exists.mp hsome
    rw [hdir]
    by_cases hc : q = m.current
    · subst hc
      rw [← h.cr3]
      refine Or.inl ⟨Or.inr rfl, hn, fun d hd => ?_⟩
      rw [(hF.user d hd).1, writable_cowEntry]
    · exact Or.inr ⟨⟨hq, hc⟩, (isDirectory_iff h).mpr ⟨hsome, rfl⟩, hF.space h ht hc⟩

/-- **A fork protects what it shares.** -/
theorem Forked.guarded (h' : Holds m' L') (hG : Guarded m) : Guarded m' := by
  intro q r D E hD hE hqr d i d' i' hp hr heq hx
  have hcur : IsDirectory m m.current m.cr3 := (isDirectory_iff h).mpr ⟨h.cur, h.cr3⟩
  rcases hF.origin h h' hD with ⟨_, _, hno⟩ | ⟨⟨_, hqc⟩, hD0, hspace⟩
  · rw [Exposed, hno d hp.1] at hx
    cases hx.1
  have hp0 := hspace.hasPage.mp hp
  have hx0 := (hspace.exposed hp0).mp hx
  rw [hspace.pageOf hp0] at heq
  rcases hF.origin h h' hE with ⟨_, hnames, _⟩ | ⟨_, hE0, hspace'⟩
  · have hr0 := hnames.hasPage.mp hr
    rw [hnames.pageOf hr0] at heq
    exact hG q m.current D m.cr3 hD0 hcur hqc d i d' i' hp0 hr0 heq hx0
  · have hr0 := hspace'.hasPage.mp hr
    rw [hspace'.pageOf hr0] at heq
    exact hG q r D E hD0 hE0 hqr d i d' i' hp0 hr0 heq hx0

/-- **The child gets the memory of its parent**, and nobody's changes. -/
theorem Forked.memories (h' : Holds m' L') :
    Mm.memories m' = Function.update (Mm.memories m) p (Mm.memories m m.current) := by
  have hcur : Mm.memories m m.current = some (userMemory m.ram m.cr3) := memoryOf_current h
  have hcontents : ∀ d i, HasPage m.ram m.cr3 d i → m'.ram (pageOf m.ram m.cr3 d i) = m.ram (pageOf m.ram m.cr3 d i) :=
    fun d i hp => by
      rw [h.cr3] at hp ⊢
      exact hF.contents h h.curTask hp
  funext q
  by_cases hq : q = p
  · subst hq
    rw [Function.update_self, hcur, Mm.memories, memoryOf_of h' (hF.tasks ▸ Function.update_self ..),
      userMemory_congr (hF.names h).2 hcontents]
  · rw [Function.update_of_ne hq]
    have htask : m'.tasks q = m.tasks q := by rw [hF.tasks, Function.update_of_ne hq]
    cases ht : m.tasks q with
    | none => rw [Mm.memories, Mm.memories, memoryOf_none ht, memoryOf_none (htask.trans ht)]
    | some t =>
      rw [Mm.memories, Mm.memories, memoryOf_of h ht, memoryOf_of h' (htask.trans ht), hF.dir q hq]
      by_cases hc : q = m.current
      · subst hc
        rw [← h.cr3, userMemory_congr (hF.names h).1 hcontents]
      · rw [userMemory_congr (SameSpace.names (hF.space h ht hc)) fun d i hp => hF.contents h ht hp]

end Fork

end Guarded

end Raampjes.Mm
