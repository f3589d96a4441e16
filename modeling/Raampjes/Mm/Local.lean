import Raampjes.Mm.Unshare

/-!
# What the running task can change

- `Tidy`: the present slots of the kernel's page table belong to tasks, or to the function that is running, so that one
  is free (`Tidy.room`);
- `Foreign`: the tables and pages of the other tasks; `Local`: what a function of the running task leaves alone, above
  all these;
- the lemmas `Sound.unsharedTable`, `Sound.setPte`, ...: the single changes, each with what it keeps.
-/

namespace Raampjes.Mm

open Progs Sched

variable {s : Bool}

/-! ## The kernel's page table -/

/-- The first page table and the kernel's own are never flagged, a present slot belongs to a task or is one of `T`, and
before the first fork no page is flagged. -/
structure Tidy (m : Machine) (L : Uses s) (T : Finset Nat) : Prop where
  low : ∀ i, i < 1024 → shared (m.ram L.pt1 i) = false
  slot : ∀ K k, L.ktab = some K → k < 1024 → present (m.ram K k) = true → shared (m.ram K k) = false ∧
    (k ∈ T ∨ ∃ p t, m.tasks p = some t ∧ (t.addr = slotAddr k ∨ t.pageDirectory = slotAddr k))
  plain : L.ktab = none → ∀ d i, HasPage m.ram m.cr3 d i → shared (m.ram (frameOf (m.ram m.cr3 d)) i) = false

/-- The slot at an address. -/
def slotOf (addr : Nat) : Nat := (addr - slotAddr 0) / PAGE_SIZE

theorem slotOf_slotAddr (k : Nat) : slotOf (slotAddr k) = k := by
  rw [slotOf, slotAddr, slotAddr, PAGE_SIZE]
  omega

section Tidy

variable {m m' : Machine} {L L' : Uses s} {T : Finset Nat} {K : Nat}

/-- **There is room**: the tasks have two slots each. -/
theorem Tidy.room (ht : Tidy m L T) (h : Holds m L) (hK : L.ktab = some K) (hT : T.card ≤ 8) :
    ∃ k, scan (m.ram K) 1024 = some k := by
  by_contra hno
  have hnone : scan (m.ram K) 1024 = none := by
    cases hs : scan (m.ram K) 1024 with
    | none => rfl
    | some k => exact absurd ⟨k, hs⟩ hno
  have hall := (scan_eq_none (le_refl _)).mp hnone
  have hsub : Finset.range 1024 ⊆ T ∪ ((Finset.range MAX_TASKS).image fun p => slotOf ((m.tasks p).getD noTask).addr) ∪
      (Finset.range MAX_TASKS).image fun p => slotOf ((m.tasks p).getD noTask).pageDirectory := by
    intro k hk
    have hlt := Finset.mem_range.mp hk
    simp only [Finset.mem_union, Finset.mem_image, Finset.mem_range]
    rcases (ht.slot K k hK hlt (hall k (by omega) hlt)).2 with hk | ⟨p, t, hp, haddr⟩
    · exact Or.inl (Or.inl hk)
    · have hp64 := (h.task p t hp).lt
      rcases haddr with haddr | haddr
      · exact Or.inl (Or.inr ⟨p, hp64, by rw [hp, Option.getD_some, haddr, slotOf_slotAddr]⟩)
      · exact Or.inr ⟨p, hp64, by rw [hp, Option.getD_some, haddr, slotOf_slotAddr]⟩
  have hcard := Finset.card_le_card hsub
  have h1 := Finset.card_union_le (T ∪ ((Finset.range MAX_TASKS).image fun p => slotOf ((m.tasks p).getD noTask).addr))
    ((Finset.range MAX_TASKS).image fun p => slotOf ((m.tasks p).getD noTask).pageDirectory)
  have h2 := Finset.card_union_le T ((Finset.range MAX_TASKS).image fun p => slotOf ((m.tasks p).getD noTask).addr)
  have h3 : ((Finset.range MAX_TASKS).image fun p => slotOf ((m.tasks p).getD noTask).addr).card ≤ MAX_TASKS :=
    Finset.card_image_le.trans (Finset.card_range _).le
  have h4 : ((Finset.range MAX_TASKS).image fun p => slotOf ((m.tasks p).getD noTask).pageDirectory).card ≤ MAX_TASKS :=
    Finset.card_image_le.trans (Finset.card_range _).le
  rw [Finset.card_range] at hcard
  rw [MAX_TASKS] at *
  omega

theorem Tidy.congr (ht : Tidy m L T) (hpt1 : L'.pt1 = L.pt1) (hktab : L'.ktab = L.ktab) (htasks : m'.tasks = m.tasks)
    (hlow : ∀ i, i < 1024 → m'.ram L.pt1 i = m.ram L.pt1 i)
    (hslot : ∀ K k, L.ktab = some K → k < 1024 → present (m'.ram K k) = true → m'.ram K k = m.ram K k)
    (hplain : L.ktab = none → ∀ d i, HasPage m'.ram m'.cr3 d i →
      shared (m'.ram (frameOf (m'.ram m'.cr3 d)) i) = false) :
    Tidy m' L' T := by
  refine ⟨?_, ?_, hktab ▸ hplain⟩
  · intro i hi
    rw [hpt1, hlow i hi]
    exact ht.low i hi
  · intro K k hK hk hp
    rw [hktab] at hK
    have heq := hslot K k hK hk hp
    rw [heq] at hp ⊢
    rw [htasks]
    exact ht.slot K k hK hk hp

end Tidy

/-! ## The other tasks -/

/-- What the layout needs to know of a task. -/
def TaskStruct.key (t : TaskStruct) : Nat × Nat × Nat × Nat := (t.pid, t.addr, t.pageDirectory, t.ppid)

/-- The tasks are the same but for fields that the layout does not speak of. -/
structure SameTasks (m m' : Machine) : Prop where
  key : ∀ p, (m'.tasks p).map TaskStruct.key = (m.tasks p).map TaskStruct.key
  current : m'.current = m.current
  cr3 : m'.cr3 = m.cr3

theorem SameTasks.refl (m : Machine) : SameTasks m m := ⟨fun _ => rfl, rfl, rfl⟩

section SameTasks

variable {m m1 m2 : Machine}

theorem SameTasks.symm (h : SameTasks m m1) : SameTasks m1 m := ⟨fun p => (h.key p).symm, h.current.symm, h.cr3.symm⟩

theorem SameTasks.trans (h : SameTasks m m1) (h' : SameTasks m1 m2) : SameTasks m m2 :=
  ⟨fun p => (h'.key p).trans (h.key p), h'.current.trans h.current, h'.cr3.trans h.cr3⟩

theorem Untouched.same (h : Untouched m m1) : SameTasks m m1 := ⟨fun _ => by rw [h.1], h.2.1, h.2.2⟩

theorem SameTasks.of_tasks (ht : m1.tasks = m.tasks) (hc : m1.current = m.current) (hcr3 : m1.cr3 = m.cr3) :
    SameTasks m m1 := ⟨fun _ => by rw [ht], hc, hcr3⟩

theorem SameTasks.isSome (h : SameTasks m m1) (p : Nat) : (m1.tasks p).isSome = (m.tasks p).isSome := by
  rw [← Option.isSome_map (f := TaskStruct.key), h.key, Option.isSome_map]

theorem SameTasks.get (h : SameTasks m m1) {p : Nat} {t : TaskStruct} (ht : m.tasks p = some t) :
    ∃ t', m1.tasks p = some t' ∧ t'.key = t.key := by
  have hk := h.key p
  rw [ht, Option.map_some] at hk
  obtain ⟨t', ht', hkey⟩ := Option.map_eq_some_iff.mp hk
  exact ⟨t', ht', hkey⟩

end SameTasks

/-- The frame is a directory, a table or a page of a task that is not running. -/
def Foreign (m : Machine) (L : Uses s) (f : Nat) : Prop :=
  ∃ q t, m.tasks q = some t ∧ q ≠ m.current ∧ (f = L.dir q ∨
    (∃ d, d < 768 ∧ present (m.ram (L.dir q) d) = true ∧ f = frameOf (m.ram (L.dir q) d)) ∨
    ∃ d i, HasPage m.ram (L.dir q) d i ∧ f = pageOf m.ram (L.dir q) d i)

section Foreign

variable {m : Machine} {L : Uses s} {f d : Nat} (h : Holds m L) (hf : Foreign m L f)

include h hf

theorem Foreign.reaches : Reaches m f := by
  obtain ⟨q, t, ht, _, rfl | ⟨d, hd, hp, rfl⟩ | ⟨d, i, hp, rfl⟩⟩ := hf
  · exact h.reaches_dir ht
  · exact h.reaches_window ht (by omega) hp
  · exact h.reaches_page ht hp

/-- A frame of the kernel half is not foreign. -/
theorem Foreign.ne_kernel {g : Nat} (hg : L.role g = .low ∨ L.role g = .kernelTable ∨ L.role g = .dir m.current) :
    f ≠ g := by
  have hne : ∀ {r}, L.role f = r → r ≠ .low → r ≠ .kernelTable → r ≠ .dir m.current → f ≠ g := by
    intro r hr h1 h2 h3
    rcases hg with hg | hg | hg
    · exact ne_of_role hr hg h1
    · exact ne_of_role hr hg h2
    · exact ne_of_role hr hg h3
  obtain ⟨q, t, ht, hq, rfl | ⟨d, hd, hp, rfl⟩ | ⟨d, i, hp, rfl⟩⟩ := hf
  · exact hne (h.task q t ht).role (by simp) (by simp) (by simpa using hq)
  · exact hne ((h.task q t ht).spaceOk.table d hd hp) (by simp) (by simp) (by simp)
  · exact hne ((h.task q t ht).spaceOk.page d i hp) (by simp) (by simp) (by simp)

theorem Foreign.ne_ktab {K : Nat} (hK : L.ktab = some K) : f ≠ K := hf.ne_kernel h (Or.inr (Or.inl (h.ktab_role K hK)))

theorem Foreign.ne_cr3 : f ≠ m.cr3 := hf.ne_kernel h (Or.inr (Or.inr h.current_role))

omit h in
theorem Foreign.ne_spare {g : Nat} (hg : Spare m L g) : f ≠ g := by
  obtain ⟨q, t, ht, _, rfl | ⟨d', hd', hp', rfl⟩ | ⟨d', i, hp', rfl⟩⟩ := hf
  · exact (hg.noTable.dir q t ht).symm
  · exact (hg.noTable.table q t ht d' hd' hp').symm
  · exact (hg.page q t ht d' i hp').symm

theorem Foreign.ne_unreached {g : Nat} (hg : ¬ Reaches m g) : f ≠ g := fun he => hg (he ▸ hf.reaches h)

/-- Nor is a private page table of the running task. -/
theorem Foreign.ne_private (hd : d < 768) (hp : present (m.ram m.cr3 d) = true) (hs : shared (m.ram m.cr3 d) = false) :
    f ≠ frameOf (m.ram m.cr3 d) := by
  have hrole := h.curSpace.table d hd hp
  obtain ⟨q, t, ht, hq, rfl | ⟨d', hd', hp', rfl⟩ | ⟨d', i, hp', rfl⟩⟩ := hf
  · exact ne_of_role (h.task q t ht).role hrole (by simp)
  · exact h.private_table hd hp hs ht hq hd' hp'
  · exact ne_of_role ((h.task q t ht).spaceOk.page d' i hp') hrole (by simp)

end Foreign

/-- **What the running task leaves alone** when it changes its memory. -/
structure Local (m : Machine) (L : Uses s) (m' : Machine) (L' : Uses s) : Prop where
  same : SameTasks m m'
  pt1 : L'.pt1 = L.pt1
  dir : L'.dir = L.dir
  own : L'.own = L.own
  ktab : L'.ktab = L.ktab
  high : ∀ d, 768 ≤ d → d < 1024 → m'.ram m.cr3 d = m.ram m.cr3 d
  other : ∀ f, Foreign m L f → m'.ram f = m.ram f

theorem Local.refl (m : Machine) (L : Uses s) : Local m L m L :=
  ⟨SameTasks.refl m, rfl, rfl, rfl, rfl, fun _ _ _ => rfl, fun _ _ => rfl⟩

section Local

variable {m m1 m2 : Machine} {L L1 L2 : Uses s}

theorem Local.foreign (h : Local m L m1 L1) {f : Nat} (hf : Foreign m L f) : Foreign m1 L1 f := by
  obtain ⟨q, t, ht, hq, hcase⟩ := hf
  have hdir : m1.ram (L.dir q) = m.ram (L.dir q) := h.other _ ⟨q, t, ht, hq, Or.inl rfl⟩
  obtain ⟨t', ht', _⟩ := h.same.get ht
  refine ⟨q, t', ht', h.same.current ▸ hq, ?_⟩
  rw [h.dir]
  rcases hcase with rfl | ⟨d, hd, hp, rfl⟩ | ⟨d, i, ⟨hd, hi, hp, hpi⟩, rfl⟩
  · exact Or.inl rfl
  · right; left
    refine ⟨d, hd, ?_, ?_⟩
    · rw [hdir]
      exact hp
    · rw [hdir]
  · right; right
    have htab : m1.ram (frameOf (m.ram (L.dir q) d)) = m.ram (frameOf (m.ram (L.dir q) d)) :=
      h.other _ ⟨q, t, ht, hq, Or.inr (Or.inl ⟨d, hd, hp, rfl⟩)⟩
    refine ⟨d, i, ⟨hd, hi, ?_, ?_⟩, ?_⟩
    · rw [hdir]
      exact hp
    · rw [hdir, htab]
      exact hpi
    · rw [pageOf, pageOf, hdir, htab]

theorem Local.trans (h : Local m L m1 L1) (h' : Local m1 L1 m2 L2) : Local m L m2 L2 := by
  refine ⟨h.same.trans h'.same, h'.pt1.trans h.pt1, h'.dir.trans h.dir, h'.own.trans h.own, h'.ktab.trans h.ktab, ?_,
    fun f hf => (h'.other f (h.foreign hf)).trans (h.other f hf)⟩
  intro d hd hlt
  rw [← h.same.cr3, h'.high d hd hlt, h.same.cr3, h.high d hd hlt]

end Local

/-! ## The single changes -/

/-- The layout holds and the kernel's page table is tidy. -/
structure Sound (m : Machine) (L : Uses s) (T : Finset Nat) : Prop where
  holds : Holds m L
  tidy : Tidy m L T

section Changes

variable {m : Machine} {L : Uses s} {T : Finset Nat} {K k addr d i new f : Nat} {flags w : Word}

theorem Sound.setCount (h : Sound m L T) (f : Nat) (n : UInt8) :
    Sound (m.setCount f n) L T ∧ Local m L (m.setCount f n) L :=
  ⟨⟨h.holds.setCount f n, h.tidy.congr rfl rfl rfl (fun _ _ => rfl) (fun _ _ _ _ _ => rfl) h.tidy.plain⟩,
    ⟨SameTasks.of_tasks rfl rfl rfl, rfl, rfl, rfl, rfl, fun _ _ _ => rfl, fun _ _ => rfl⟩⟩

/-- A change of the fields of tasks that the layout does not speak of. -/
theorem Sound.retask {m' : Machine} (h : Sound m L T) (hs : SameTasks m m') (hram : m'.ram = m.ram) :
    Sound m' L T ∧ Local m L m' L := by
  refine ⟨⟨h.holds.retask hram hs.cr3 hs.current hs.isSome ?_, ?_, ?_, ?_⟩,
    ⟨hs, rfl, rfl, rfl, rfl, fun _ _ _ => by rw [hram], fun _ _ => by rw [hram]⟩⟩
  · intro p t t' ht ht'
    have hkey := hs.key p
    rw [ht, ht', Option.map_some, Option.map_some, Option.some.injEq] at hkey
    simp only [TaskStruct.key, Prod.mk.injEq] at hkey
    exact hkey
  · rw [hram]
    exact h.tidy.low
  · intro K k hK hk hp
    rw [hram] at hp ⊢
    refine (h.tidy.slot K k hK hk hp).imp id (Or.imp id ?_)
    rintro ⟨p, t, ht, haddr⟩
    obtain ⟨t', ht', hkey⟩ := hs.get ht
    simp only [TaskStruct.key, Prod.mk.injEq] at hkey
    exact ⟨p, t', ht', by rwa [hkey.2.1, hkey.2.2.1]⟩
  · rw [hram, hs.cr3]
    exact h.tidy.plain

theorem Sound.drop (h : Sound m L T) (f : Nat) : Sound (m.drop f) L T ∧ Local m L (m.drop f) L := by
  rcases drop_cases m f with ⟨_, he⟩ | ⟨_, he⟩
  · rw [he]
    exact h.setCount f _
  · rw [he]
    exact ⟨h, Local.refl m L⟩

theorem Sound.use (h : Sound m L T) (hf : Spare m L f) (r : Role) :
    Sound m (L.use f r) T ∧ Local m L m (L.use f r) :=
  ⟨⟨h.holds.use hf r, h.tidy.congr rfl rfl rfl (fun _ _ => rfl) (fun _ _ _ _ _ => rfl) h.tidy.plain⟩,
    ⟨SameTasks.refl m, rfl, rfl, rfl, rfl, fun _ _ _ => rfl, fun _ _ => rfl⟩⟩

/-- A page-table entry of a private table. -/
theorem Sound.setPte (h : Sound m L T) (hd : d < 768) (hp : present (m.ram m.cr3 d) = true)
    (hs : shared (m.ram m.cr3 d) = false)
    (hw : present w = true → L.role (frameOf w) = .data ∧ (s = true → OnlyAt m.ram m.cr3 d i (frameOf w)))
    (hunlock : s = true → present w = true → shared w = true →
      user (m.ram m.cr3 d) = true ∧ writable (m.ram m.cr3 d) = true)
    (hplain : L.ktab = none → present w = true → shared w = false) :
    Sound (m.setWord (frameOf (m.ram m.cr3 d)) i w) L T ∧ Local m L (m.setWord (frameOf (m.ram m.cr3 d)) i w) L := by
  have hrole := h.holds.curSpace.table d hd hp
  have hne : ∀ {g r}, L.role g = r → r ≠ .table (entryOf s d) →
      ∀ j, (m.setWord (frameOf (m.ram m.cr3 d)) i w).ram g j = m.ram g j := fun hg hr j =>
    setWord_of_ne _ _ _ _ (Or.inl (ne_of_role hg hrole hr))
  refine ⟨⟨h.holds.setPte hd hp hs hw hunlock, h.tidy.congr rfl rfl rfl ?_ ?_ ?_⟩,
    ⟨SameTasks.of_tasks rfl rfl rfl, rfl, rfl, rfl, rfl, ?_, ?_⟩⟩
  · exact fun j _ => hne h.holds.low_role (by simp) j
  · exact fun K k hK _ _ => hne (h.holds.ktab_role K hK) (by simp) k
  · rintro hK d' i' ⟨hd', hi', hp', hq'⟩
    have hcr3 : ∀ j, (m.setWord (frameOf (m.ram m.cr3 d)) i w).ram m.cr3 j = m.ram m.cr3 j :=
      hne h.holds.current_role (by simp)
    rw [setWord_cr3, hcr3] at hp' hq' ⊢
    rw [setWord_ram] at hq' ⊢
    by_cases hat : frameOf (m.ram m.cr3 d') = frameOf (m.ram m.cr3 d) ∧ i' = i
    · rw [if_pos hat] at hq' ⊢
      exact hplain hK hq'
    · rw [if_neg hat] at hq' ⊢
      exact h.tidy.plain hK d' i' ⟨hd', hi', hp', hq'⟩
  · exact fun d' _ _ => hne h.holds.current_role (by simp) d'
  · exact fun f hf => funext fun j => setWord_of_ne _ _ _ _ (Or.inl (hf.ne_private h.holds hd hp hs))

/-- A directory entry of the user half. -/
theorem Sound.setPde (h : Sound m L T) (hd : d < 768) (hH : Holds (m.setWord m.cr3 d w) L)
    (hplain : L.ktab = none → present w = true → ∀ i, i < 1024 → present (m.ram (frameOf w) i) = true →
      shared (m.ram (frameOf w) i) = false) :
    Sound (m.setWord m.cr3 d w) L T ∧ Local m L (m.setWord m.cr3 d w) L := by
  have hne : ∀ {g}, g ≠ m.cr3 → ∀ j, (m.setWord m.cr3 d w).ram g j = m.ram g j :=
    fun hg j => setWord_of_ne _ _ _ _ (Or.inl hg)
  have hlow := ne_of_role h.holds.low_role h.holds.current_role (by simp)
  refine ⟨⟨hH, h.tidy.congr rfl rfl rfl ?_ ?_ ?_⟩, ⟨SameTasks.of_tasks rfl rfl rfl, rfl, rfl, rfl, rfl, ?_, ?_⟩⟩
  · exact fun j _ => hne hlow j
  · exact fun K k hK _ _ => hne (ne_of_role (h.holds.ktab_role K hK) h.holds.current_role (by simp)) k
  · rintro hK d' i' ⟨hd', hi', hp', hq'⟩
    have hT : frameOf ((m.setWord m.cr3 d w).ram m.cr3 d') ≠ m.cr3 :=
      ne_of_role (hH.curSpace.table d' hd' hp') hH.current_role (by simp)
    rw [setWord_cr3] at hp' hq' ⊢
    rw [hne hT] at hq' ⊢
    by_cases hat : d' = d
    · subst hat
      rw [setWord_self] at hp' hq' ⊢
      exact hplain hK hp' i' hi' hq'
    · rw [setWord_of_ne _ _ _ _ (Or.inr hat)] at hp' hq' ⊢
      exact h.tidy.plain hK d' i' ⟨hd', hi', hp', hq'⟩
  · exact fun d' hle _ => setWord_of_ne _ _ _ _ (Or.inr (by omega))
  · exact fun f hf => funext (hne (hf.ne_cr3 h.holds))

/-- Other flags in a private table. -/
theorem Sound.retable (h : Sound m L T) (hd : d < 768) (hp : present (m.ram m.cr3 d) = true)
    (hs : shared (m.ram m.cr3 d) = false) {g : Nat → Word}
    (hg : ∀ i, i < 1024 → present (g i) = present (m.ram (frameOf (m.ram m.cr3 d)) i) ∧
      frameOf (g i) = frameOf (m.ram (frameOf (m.ram m.cr3 d)) i))
    (hunlock : user (m.ram m.cr3 d) = true ∧ writable (m.ram m.cr3 d) = true) (hplain : L.ktab ≠ none) :
    Sound (m.setFrame (frameOf (m.ram m.cr3 d)) g) L T ∧ Local m L (m.setFrame (frameOf (m.ram m.cr3 d)) g) L := by
  set t := frameOf (m.ram m.cr3 d) with ht
  have hrole : L.role t = .table (entryOf s d) := h.holds.curSpace.table d hd hp
  have hne : ∀ {f r}, L.role f = r → r ≠ .table (entryOf s d) → (m.setFrame t g).ram f = m.ram f :=
    fun hf hr => setFrame_of_ne _ _ _ (ne_of_role hf hrole hr)
  have hdir : (m.setFrame t g).ram m.cr3 = m.ram m.cr3 := hne h.holds.current_role (by simp)
  have hword : ∀ d' i, d' < 768 → i < 1024 → present (m.ram m.cr3 d') = true →
      present ((m.setFrame t g).ram (frameOf (m.ram m.cr3 d')) i) = present (m.ram (frameOf (m.ram m.cr3 d')) i) ∧
      frameOf ((m.setFrame t g).ram (frameOf (m.ram m.cr3 d')) i) = frameOf (m.ram (frameOf (m.ram m.cr3 d')) i) := by
    intro d' i hd' hi hp'
    by_cases hat : frameOf (m.ram m.cr3 d') = t
    · rw [hat, setFrame_self]
      exact hg i hi
    · rw [setFrame_of_ne _ _ _ hat]
      exact ⟨rfl, rfl⟩
  have hpage : ∀ d' i, HasPage (m.setFrame t g).ram m.cr3 d' i →
      HasPage m.ram m.cr3 d' i ∧ pageOf (m.setFrame t g).ram m.cr3 d' i = pageOf m.ram m.cr3 d' i := by
    rintro d' i ⟨hd', hi, hp', hq'⟩
    rw [pageOf, pageOf]
    rw [hdir] at hp' hq' ⊢
    obtain ⟨h1, h2⟩ := hword d' i hd' hi hp'
    exact ⟨⟨hd', hi, hp', h1 ▸ hq'⟩, h2⟩
  have hforeign : ∀ f, Foreign m L f → (m.setFrame t g).ram f = m.ram f :=
    fun f hf => setFrame_of_ne _ _ _ (hf.ne_private h.holds hd hp hs)
  have hH : Holds (m.setFrame t g) L := by
    refine h.holds.changeSpace rfl rfl rfl ?_ ?_ ?_ ?_ ?_ ?_ ?_ ?_
    · exact fun i _ => congrFun (hne h.holds.low_role (by simp)) i
    · exact fun d' _ _ => congrFun hdir d'
    · exact fun p u _ K k hK _ _ => congrFun (hne (h.holds.ktab_role K hK) (by simp)) k
    · intro q u hu hq
      have hqd : (m.setFrame t g).ram (L.dir q) = m.ram (L.dir q) := hforeign _ ⟨q, u, hu, hq, Or.inl rfl⟩
      refine ⟨fun d' _ => congrFun hqd d', fun d' hd' => ⟨congrFun hqd d', fun hp' i _ => ?_⟩⟩
      exact congrFun (hforeign _ ⟨q, u, hu, hq, Or.inr (Or.inl ⟨d', hd', hp', rfl⟩)⟩) i
    · refine ⟨?_, ?_, ?_, ?_, ?_, ?_⟩
      · rw [hdir]
        exact h.holds.curSpace.table
      · intro d' i hpg
        obtain ⟨hold, hf⟩ := hpage d' i hpg
        rw [hf]
        exact h.holds.curSpace.page d' i hold
      · intro hst d1 i1 d2 i2 h1 h2 heq
        obtain ⟨hold1, hf1⟩ := hpage d1 i1 h1
        obtain ⟨hold2, hf2⟩ := hpage d2 i2 h2
        rw [hf1, hf2] at heq
        exact h.holds.curSpace.inj hst d1 i1 d2 i2 hold1 hold2 heq
      · rw [hdir]
        exact h.holds.curSpace.cow
      · rw [hdir]
        exact h.holds.curSpace.protect
      · intro hst d' i hpg hs' hsw
        obtain ⟨hold, _⟩ := hpage d' i hpg
        rw [hdir] at hs' hsw ⊢
        by_cases hat : frameOf (m.ram m.cr3 d') = t
        · obtain rfl := h.holds.table_inj hold.1 hd hold.2.2.1 hp hat hs
          exact hunlock
        · rw [setFrame_of_ne _ _ _ hat] at hsw
          exact h.holds.curSpace.unlock hst d' i hold hs' hsw
    · intro q u d' d'' hu hq hd' hd'' hp' hq' heq
      rw [hdir] at hp' heq ⊢
      exact h.holds.cur_sharing hd' hp' hu (Or.inl hq) hd'' hq' heq
    · rw [hdir]
      exact fun d' d'' => h.holds.own_sharing
    · exact fun hK => absurd hK hplain
  refine ⟨⟨hH, h.tidy.congr rfl rfl rfl ?_ ?_ fun hK => absurd hK hplain⟩,
    ⟨SameTasks.of_tasks rfl rfl rfl, rfl, rfl, rfl, rfl, ?_, hforeign⟩⟩
  · exact fun i _ => congrFun (hne h.holds.low_role (by simp)) i
  · exact fun K k hK _ _ => congrFun (hne (h.holds.ktab_role K hK) (by simp)) k
  · exact fun d' _ _ => congrFun hdir d'

/-- The contents of a frame without a use. -/
theorem Sound.setFrame (h : Sound m L T) (hf : Spare m L f) (g : Nat → Word) :
    Sound (m.setFrame f g) L T ∧ Local m L (m.setFrame f g) L := by
  have hn := hf.noTable
  have hc : (m.setFrame f g).ram m.cr3 = m.ram m.cr3 := by
    rw [h.holds.cr3]
    exact setFrame_of_ne _ _ _ (hn.dir _ _ h.holds.curTask).symm
  refine ⟨⟨h.holds.setFrame hn g, h.tidy.congr rfl rfl rfl ?_ ?_ ?_⟩,
    ⟨SameTasks.of_tasks rfl rfl rfl, rfl, rfl, rfl, rfl, ?_, ?_⟩⟩
  · exact fun j _ => congrFun (setFrame_of_ne _ _ _ hn.low.symm) j
  · exact fun K k hK _ _ => congrFun (setFrame_of_ne _ _ _ (hn.ktab K hK).symm) k
  · rintro hK d' i' ⟨hd', hi', hp', hq'⟩
    rw [setFrame_cr3, hc] at hp' hq' ⊢
    have hT : frameOf (m.ram m.cr3 d') ≠ f := by
      have hp := hp'
      rw [h.holds.cr3] at hp ⊢
      exact (hn.table _ _ h.holds.curTask d' hd' hp).symm
    rw [setFrame_of_ne _ _ _ hT] at hq' ⊢
    exact h.tidy.plain hK d' i' ⟨hd', hi', hp', hq'⟩
  · intro d' _ _
    rw [hc]
  · exact fun f' hf' => setFrame_of_ne _ _ _ (hf'.ne_spare hf)

/-- The flags of `fork_mem` in the directory of the running task. -/
theorem Sound.flagDir (h : Sound m L T) (hK : L.ktab ≠ none) :
    Sound (m.setFrame m.cr3 (filled 768 (fun d => cowEntry (m.ram m.cr3 d)) (m.ram m.cr3))) L T ∧
      Local m L (m.setFrame m.cr3 (filled 768 (fun d => cowEntry (m.ram m.cr3 d)) (m.ram m.cr3))) L := by
  set m1 := m.setFrame m.cr3 (filled 768 (fun d => cowEntry (m.ram m.cr3 d)) (m.ram m.cr3)) with hm1
  have hlt : ∀ d, d < 768 → m1.ram m.cr3 d = cowEntry (m.ram m.cr3 d) := by
    intro d hd
    rw [hm1, setFrame_self, filled_lt hd]
  have hge : ∀ d, 768 ≤ d → m1.ram m.cr3 d = m.ram m.cr3 d := by
    intro d hd
    rw [hm1, setFrame_self, filled, if_neg (by omega)]
  have hfar : ∀ g, g ≠ m.cr3 → m1.ram g = m.ram g := fun g hg => setFrame_of_ne _ _ _ hg
  have hforeign : ∀ g, Foreign m L g → m1.ram g = m.ram g := fun g hg => hfar g (hg.ne_cr3 h.holds)
  have hpage : ∀ d i, HasPage m1.ram m.cr3 d i → HasPage m.ram m.cr3 d i ∧
      pageOf m1.ram m.cr3 d i = pageOf m.ram m.cr3 d i := by
    rintro d i ⟨hd, hi, hp, hq⟩
    rw [pageOf, pageOf]
    rw [hlt d hd, frameOf_cowEntry] at hq ⊢
    rw [hlt d hd, present_cowEntry] at hp
    have hT := ne_of_role (h.holds.curSpace.table d hd hp) h.holds.current_role (by simp)
    rw [hfar _ hT] at hq ⊢
    exact ⟨⟨hd, hi, hp, hq⟩, rfl⟩
  have hH : Holds m1 L := by
    refine h.holds.changeSpace rfl rfl rfl ?_ (fun d hd _ => hge d hd) ?_ ?_ ?_ ?_ ?_ ?_
    · exact fun i _ => congrFun (hfar _ (ne_of_role h.holds.low_role h.holds.current_role (by simp))) i
    · exact fun p u _ K k hK _ _ =>
        congrFun (hfar _ (ne_of_role (h.holds.ktab_role K hK) h.holds.current_role (by simp))) k
    · intro q u hu hq
      have hqd := hforeign _ ⟨q, u, hu, hq, Or.inl rfl⟩
      refine ⟨fun d' _ => congrFun hqd d', fun d' hd' => ⟨congrFun hqd d', fun hp' i _ => ?_⟩⟩
      exact congrFun (hforeign _ ⟨q, u, hu, hq, Or.inr (Or.inl ⟨d', hd', hp', rfl⟩)⟩) i
    · refine ⟨?_, ?_, ?_, ?_, ?_, ?_⟩
      · intro d hd hp
        rw [hlt d hd, present_cowEntry] at hp
        rw [hlt d hd, frameOf_cowEntry]
        exact h.holds.curSpace.table d hd hp
      · intro d i hp
        obtain ⟨hold, hf⟩ := hpage d i hp
        rw [hf]
        exact h.holds.curSpace.page d i hold
      · intro hst d i d' i' hp hp' heq
        obtain ⟨hold, hf⟩ := hpage d i hp
        obtain ⟨hold', hf'⟩ := hpage d' i' hp'
        rw [hf, hf'] at heq
        exact h.holds.curSpace.inj hst d i d' i' hold hold' heq
      · intro _ d hd
        rw [hlt d hd]
        simp
      · intro _ d hd _
        rw [hlt d hd]
        simp
      · intro _ d i hp hs
        rw [hlt d hp.1, shared_cowEntry] at hs
        cases hs
    · intro q u d d' hu hq hd hd' hp hpq heq
      rw [hlt d hd] at hp heq ⊢
      rw [present_cowEntry] at hp
      rw [frameOf_cowEntry] at heq
      exact ⟨by simp, (h.holds.cur_sharing hd hp hu (Or.inl hq) hd' hpq heq).2⟩
    · intro d d' _ hd _ _ _ _
      rw [hlt d hd]
      simp
    · exact fun hc => absurd hc hK
  refine ⟨⟨hH, h.tidy.congr rfl rfl rfl ?_ ?_ fun hc => absurd hc hK⟩,
    ⟨SameTasks.of_tasks rfl rfl rfl, rfl, rfl, rfl, rfl, fun d hd _ => hge d hd, hforeign⟩⟩
  · exact fun i _ => congrFun (hfar _ (ne_of_role h.holds.low_role h.holds.current_role (by simp))) i
  · exact fun K k hK _ _ =>
      congrFun (hfar _ (ne_of_role (h.holds.ktab_role K hK) h.holds.current_role (by simp))) k

/-- The words of `Machine.unshared`. -/
theorem unshared_ram_of_ne (m : Machine) {K k addr new : Nat} {flags : Word} {f j : Nat} (hK : f ≠ K) (hnew : f ≠ new)
    (hT : f ≠ frameOf (m.pde addr) ∨ j ≠ pageTableIndex addr) :
    (m.unshared K k addr new flags).ram f j = m.ram f j := by
  rw [Machine.unshared, setWord_of_ne _ _ _ _ (Or.inl hK), drop_ram, setFrame_of_ne _ _ _ hnew,
    setWord_of_ne _ _ _ _ hT, setCount_ram, setWord_of_ne _ _ _ _ (Or.inl hK)]

theorem unshared_ram_slot (m : Machine) {K k addr new : Nat} {flags : Word} {j : Nat} (hnew : K ≠ new)
    (hT : K ≠ frameOf (m.pde addr)) (hp : present ((m.unshared K k addr new flags).ram K j) = true) :
    (m.unshared K k addr new flags).ram K j = m.ram K j := by
  by_cases hj : j = k
  · subst hj
    rw [Machine.unshared, setWord_self, present_absent] at hp
    cases hp
  · rw [Machine.unshared, setWord_of_ne _ _ _ _ (Or.inr hj), drop_ram, setFrame_of_ne _ _ _ hnew,
      setWord_of_ne _ _ _ _ (Or.inl hT), setCount_ram, setWord_of_ne _ _ _ _ (Or.inr hj)]

/-- The other parts of `Sound` and `Local` after a frame is replaced. -/
theorem Sound.unshared (h : Sound m L T) (hK : L.ktab = some K) (hx : Spot m L addr) (hnew : ¬ Reaches m new)
    (hforeign : ∀ f, Foreign m L f → f ≠ frameOf (m.pde addr)) {r : Role}
    (hH : Holds (m.unshared K k addr new flags) (L.use new r)) :
    Sound (m.unshared K k addr new flags) (L.use new r) T ∧
      Local m L (m.unshared K k addr new flags) (L.use new r) := by
  have hreach : ∀ {g}, Reaches m g → g ≠ new := fun hg he => hnew (he ▸ hg)
  have hKc : ∀ {g}, L.role g ≠ .kernelTable → g ≠ K := fun hg he => hg (he ▸ h.holds.ktab_role K hK)
  refine ⟨⟨hH, h.tidy.congr rfl rfl ?_ ?_ ?_ ?_⟩, ⟨SameTasks.of_tasks ?_ ?_ ?_, rfl, rfl, rfl, rfl, ?_, ?_⟩⟩
  · simp only [Machine.unshared, setWord_tasks, drop_tasks, setFrame_tasks, setCount_tasks]
  · intro j _
    refine unshared_ram_of_ne m (hKc (by rw [h.holds.low_role]; simp)) (hreach h.holds.reaches_low) (Or.inl ?_)
    exact hx.ne_low.symm
  · intro K' j hK' _ hp
    obtain rfl : K' = K := Option.some.inj (hK'.symm.trans hK)
    exact unshared_ram_slot m (hreach (h.holds.reaches_ktab hK)) (hx.ne_ktab K' hK).1.symm hp
  · intro hnone
    rw [hK] at hnone
    cases hnone
  · simp only [Machine.unshared, setWord_tasks, drop_tasks, setFrame_tasks, setCount_tasks]
  · simp only [Machine.unshared, setWord_current, drop_current, setFrame_current, setCount_current]
  · simp only [Machine.unshared, setWord_cr3, drop_cr3, setFrame_cr3, setCount_cr3]
  · intro d hd _
    refine unshared_ram_of_ne m (hKc (by rw [h.holds.current_role]; simp)) (hreach h.holds.reaches_cr3) ?_
    by_cases hc : frameOf (m.pde addr) = m.cr3
    · have := (hx.dir hc).2
      right
      omega
    · exact Or.inl (Ne.symm hc)
  · intro f hf
    exact funext fun j => unshared_ram_of_ne m (hf.ne_ktab h.holds hK) (hf.ne_unreached h.holds hnew)
      (Or.inl (hforeign f hf))

/-- **A page table of one's own.** -/
theorem Sound.unsharedTable {e : Word} (h : Sound m L T) (hK : L.ktab = some K) (hk : scan (m.ram K) 1024 = some k) (hd : d < 768)
    (hp : present (m.ram m.cr3 d) = true) (hlt : new < 2 ^ 20) (hnew : ¬ Reaches m new) :
    Sound (m.unshared K k (window d) new e) (L.use new (.table (entryOf s d))) T ∧
      Local m L (m.unshared K k (window d) new e) (L.use new (.table (entryOf s d))) := by
  obtain ⟨_, hk, habs⟩ := scan_some (le_refl _) hk
  have hpde : frameOf (m.pde (window d)) = m.cr3 := by
    rw [Machine.pde, dirIndex_window' (by omega)]
    exact h.holds.env.self_frame
  refine h.unshared hK (Spot.window h.holds hd hp) hnew ?_ (h.holds.unsharedTable hK hk habs hd hp hlt hnew)
  intro f hf
  rw [hpde]
  exact hf.ne_cr3 h.holds

/-- **A page of one's own.** -/
theorem Sound.unsharedPage {e : Word} (h : Sound m L T) (hK : L.ktab = some K) (hk : scan (m.ram K) 1024 = some k)
    (ha : addr < 2 ^ 32) (hpage : HasPage m.ram m.cr3 (dirIndex addr) (pageTableIndex addr))
    (hs : shared (m.pde addr) = false) (hlt : new < 2 ^ 20) (hnew : ¬ Reaches m new) :
    Sound (m.unshared K k addr new e) (L.use new .data) T ∧
      Local m L (m.unshared K k addr new e) (L.use new .data) := by
  obtain ⟨_, hk, habs⟩ := scan_some (le_refl _) hk
  refine h.unshared hK (Spot.page h.holds ha hpage hs) hnew ?_ (h.holds.unsharedPage hK hk habs ha hpage hs hlt hnew)
  exact fun f hf => hf.ne_private h.holds hpage.1 hpage.2.2.1 hs

end Changes

end Raampjes.Mm
