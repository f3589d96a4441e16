import Raampjes.Mm.System
import Raampjes.Mm.Translate

/-!
# The layout of memory

`Holds m L` is the invariant of the page tables: every task has a directory of its own with a common kernel half, the
task structures and directories of the children lie in slots of one kernel page table, and every frame that some address
space reaches has one use (`Role`): page tables are shared only between equal directory entries, and only with the
flag of `fork_mem`.

- `Holds.env`: the kernel reaches its tables;
- `Holds.reaches_table`, `Holds.reaches_page`, ...: what is reached, so that a frame that nothing reaches may get any role
  (`Holds.use`);
- the remaining lemmas say which single changes of the memory keep the layout.
-/

namespace Raampjes.Mm

open Sched

/-- What a frame is used for. -/
inductive Role
  | unused
  /-- The first page table, and the kernel's page table for its own pages. -/
  | low
  | kernelTable
  | dir (pid : Nat)
  | task (pid : Nat)
  /-- A page table for directory entry `d` of the user half. -/
  | table (d : Nat)
  | data
  deriving DecidableEq

/-- The frames of the tables, by task, and the uses of all frames. In a `strict` layout a page table serves one entry
number, no address space has a frame twice, and the flags are those of `fork_mem`. -/
structure Uses (strict : Bool) where
  pt1 : Nat
  ktab : Option Nat
  dir : Nat → Nat
  own : Nat → Nat
  role : Nat → Role

abbrev Layout := Uses true

/-- The number of the page tables under entry `d`. -/
abbrev entryOf : Bool → Nat → Nat
  | true, d => d
  | false, _ => 0

variable {s : Bool}

/-- Slot `k` of the kernel's page table. -/
def slotAddr (k : Nat) : Nat := 0xC0400000 + PAGE_SIZE * k

/-- Page `i` under directory entry `d`. -/
def pageAddr (d i : Nat) : Nat := d * 2 ^ 22 + i * 2 ^ 12

/-- The directory `D` has the common kernel half and names itself in its last entry. -/
structure DirOk (ram : Nat → Nat → Word) (L : Uses s) (D : Nat) : Prop where
  self : present (ram D 1023) = true
  self_frame : frameOf (ram D 1023) = D
  self_private : shared (ram D 1023) = false
  low : present (ram D 768) = true
  low_frame : frameOf (ram D 768) = L.pt1
  low_private : shared (ram D 768) = false
  ktab : ∀ K, L.ktab = some K → present (ram D 769) = true ∧ frameOf (ram D 769) = K ∧ shared (ram D 769) = false
  no_ktab : L.ktab = none → present (ram D 769) = false
  rest : ∀ d, 770 ≤ d → d < 1023 → ram D d = 0#32
  uncow : ∀ d, 768 ≤ d → d < 1024 → present (ram D d) = true → cowDir (ram D d) = false

/-- Entry `i` of the table under entry `d` is a present page. -/
def HasPage (ram : Nat → Nat → Word) (D d i : Nat) : Prop :=
  d < 768 ∧ i < 1024 ∧ present (ram D d) = true ∧ present (ram (frameOf (ram D d)) i) = true

/-- The frame of that page. -/
def pageOf (ram : Nat → Nat → Word) (D d i : Nat) : Nat := frameOf (ram (frameOf (ram D d)) i)

/-- The user half of the directory `D`: the roles of what it names, and, if the layout is strict, no frame twice and the
flags of `fork_mem`. -/
structure SpaceOk (ram : Nat → Nat → Word) (L : Uses s) (D : Nat) : Prop where
  table : ∀ d, d < 768 → present (ram D d) = true → L.role (frameOf (ram D d)) = .table (entryOf s d)
  page : ∀ d i, HasPage ram D d i → L.role (pageOf ram D d i) = .data
  inj : s = true → ∀ d i d' i', HasPage ram D d i → HasPage ram D d' i' → pageOf ram D d i = pageOf ram D d' i' →
    d = d' ∧ i = i'
  cow : s = true → ∀ d, d < 768 → cowDir (ram D d) = shared (ram D d)
  protect : s = true → ∀ d, d < 768 → shared (ram D d) = true → writable (ram D d) = false
  /-- Where a table is private, user mode can write to a flagged page once its own entry lets it. -/
  unlock : s = true → ∀ d i, HasPage ram D d i → shared (ram D d) = false →
    shared (ram (frameOf (ram D d)) i) = true → user (ram D d) = true ∧ writable (ram D d) = true

/-- The task in slot `p`, with its two pages. -/
structure TaskOk (ram : Nat → Nat → Word) (L : Uses s) (p : Nat) (t : TaskStruct) : Prop where
  pid : t.pid = p
  lt : p < MAX_TASKS
  role : L.role (L.dir p) = .dir p
  dirOk : DirOk ram L (L.dir p)
  spaceOk : SpaceOk ram L (L.dir p)
  boot : p = 0 → t.pageDirectory = KERNEL_MEMORY + L.dir 0 * PAGE_SIZE ∧ L.dir 0 < 1024 ∧
    KERNEL_MEMORY ≤ t.addr ∧ t.addr + PAGE_SIZE ≤ KERNEL_MEMORY + 2 ^ 22 ∧ t.ppid = 0
  slots : p ≠ 0 → ∃ K a b, L.ktab = some K ∧ a < 1024 ∧ b < 1024 ∧ a ≠ b ∧
    t.addr = slotAddr a ∧ present (ram K a) = true ∧ frameOf (ram K a) = L.own p ∧
    t.pageDirectory = slotAddr b ∧ present (ram K b) = true ∧ frameOf (ram K b) = L.dir p
  own : p ≠ 0 → L.role (L.own p) = .task p

/-- **The layout.** -/
structure Holds (m : Machine) (L : Uses s) : Prop where
  low : ∀ i, i < 1024 → present (m.ram L.pt1 i) = true ∧ frameOf (m.ram L.pt1 i) = i
  low_role : L.role L.pt1 = .low
  ktab_role : ∀ K, L.ktab = some K → L.role K = .kernelTable
  task : ∀ p t, m.tasks p = some t → TaskOk m.ram L p t
  init : (m.tasks 0).isSome
  cur : (m.tasks m.current).isSome
  cr3 : m.cr3 = L.dir m.current
  /-- A page table that two directory entries name is flagged in both. -/
  sharing : ∀ p t q u d d', m.tasks p = some t → m.tasks q = some u → p ≠ q ∨ d ≠ d' → d < 768 → d' < 768 →
    present (m.ram (L.dir p) d) = true → present (m.ram (L.dir q) d') = true →
    frameOf (m.ram (L.dir p) d) = frameOf (m.ram (L.dir q) d') → shared (m.ram (L.dir p) d) = true
  /-- Before the first fork there is one task, and nothing is flagged. -/
  single : L.ktab = none → (∀ p, (m.tasks p).isSome → p = 0) ∧
    ∀ d, d < 768 → shared (m.ram (L.dir 0) d) = false

/-! ## Reaching frames -/

/-- Some address of some address space has the frame `f`. -/
def Reaches (m : Machine) (f : Nat) : Prop :=
  ∃ p t D addr, m.tasks p = some t ∧ addr < 2 ^ 32 ∧ walk m.ram m.cr3 t.pageDirectory = some D ∧
    walk m.ram D addr = some f

theorem slot_lt {k : Nat} (hk : k < 1024) : slotAddr k < 2 ^ 32 := by
  rw [slotAddr, PAGE_SIZE]
  omega

theorem pageAddr_lt {d i : Nat} (hd : d < 1024) (hi : i < 1024) : pageAddr d i < 2 ^ 32 := by
  rw [pageAddr]
  omega

theorem dirIndex_slot {k off : Nat} (hk : k < 1024) (ho : off < PAGE_SIZE) : dirIndex (slotAddr k + off) = 769 := by
  rw [PAGE_SIZE] at ho
  rw [dirIndex, slotAddr, PAGE_SIZE]
  omega

theorem pageTableIndex_slot {k off : Nat} (hk : k < 1024) (ho : off < PAGE_SIZE) :
    pageTableIndex (slotAddr k + off) = k := by
  rw [PAGE_SIZE] at ho
  rw [pageTableIndex, slotAddr, PAGE_SIZE]
  omega

theorem slot_aligned (k : Nat) : slotAddr k % PAGE_SIZE = 0 := by
  rw [slotAddr, PAGE_SIZE]
  omega

theorem dirIndex_page {d i : Nat} (hi : i < 1024) : dirIndex (pageAddr d i) = d := by
  rw [dirIndex, pageAddr]
  omega

theorem pageTableIndex_page {d i : Nat} (hi : i < 1024) : pageTableIndex (pageAddr d i) = i := by
  rw [pageTableIndex, pageAddr]
  omega

section Walks

variable {ram : Nat → Nat → Word} {L : Uses s} {D p : Nat} {t : TaskStruct}

theorem DirOk.walk_window (h : DirOk ram L D) {d : Nat} (hd : d < 1024) (hp : present (ram D d) = true) :
    walk ram D (window d) = some (frameOf (ram D d)) := by
  have hpt : pageTableIndex (window d) = d := @pageTableIndex_window d 0 hd (by decide)
  simp only [walk, dirIndex_window' hd, hpt, h.self, h.self_frame, hp, Bool.and_self, if_true]

theorem walk_page {d i : Nat} (h : HasPage ram D d i) : walk ram D (pageAddr d i) = some (pageOf ram D d i) := by
  obtain ⟨_, hi, hp, hq⟩ := h
  simp only [walk, dirIndex_page hi, pageTableIndex_page hi, hp, hq, Bool.and_self, if_true, pageOf]

theorem DirOk.walk_slot (h : DirOk ram L D) {K k : Nat} (hK : L.ktab = some K) (hk : k < 1024)
    (hp : present (ram K k) = true) : walk ram D (slotAddr k) = some (frameOf (ram K k)) := by
  have hd : dirIndex (slotAddr k) = 769 := @dirIndex_slot k 0 hk (by decide)
  have hi : pageTableIndex (slotAddr k) = k := @pageTableIndex_slot k 0 hk (by decide)
  obtain ⟨h1, h2, _⟩ := h.ktab K hK
  simp only [walk, hd, hi, h1, h2, hp, Bool.and_self, if_true]

/-- In every address space the page directory of a task lies at the same address. -/
theorem TaskOk.walk_dir {m : Machine} (hm : Holds m L) (h : TaskOk m.ram L p t) (hD : DirOk m.ram L D) :
    walk m.ram D t.pageDirectory = some (L.dir p) := by
  by_cases hp : p = 0
  · obtain ⟨haddr, hlt, _⟩ := h.boot hp
    have hd : dirIndex t.pageDirectory = 768 := by
      rw [haddr, dirIndex, KERNEL_MEMORY, PAGE_SIZE]
      omega
    have hi : pageTableIndex t.pageDirectory = L.dir 0 := by
      rw [haddr, pageTableIndex, KERNEL_MEMORY, PAGE_SIZE]
      omega
    simp only [walk, hd, hi, hD.low, hD.low_frame, (hm.low _ hlt).1, (hm.low _ hlt).2, hp, Bool.and_self, if_true]
  · obtain ⟨K, a, b, hK, _, hb, _, _, _, _, haddr, hpb, hfb⟩ := h.slots hp
    rw [haddr, hD.walk_slot hK hb hpb, hfb]

end Walks

section Reached

variable {m : Machine} {L : Uses s} (h : Holds m L)

include h

theorem Holds.curTask : m.tasks m.current = some m.cur := by
  obtain ⟨t, ht⟩ := Option.isSome_iff_exists.mp h.cur
  rw [Machine.cur, ht, Option.getD_some]

theorem Holds.curOk : TaskOk m.ram L m.current m.cur := h.task _ _ h.curTask

theorem Holds.curDir : DirOk m.ram L m.cr3 := by
  rw [h.cr3]
  exact h.curOk.dirOk

theorem Holds.curSpace : SpaceOk m.ram L m.cr3 := by
  rw [h.cr3]
  exact h.curOk.spaceOk

/-- The kernel reaches its tables. -/
theorem Holds.env : Env m := by
  refine ⟨h.curDir.self, h.curDir.self_frame, ?_, ?_⟩
  · by_cases hp : m.current = 0
    · rw [(h.curOk.boot hp).1, KERNEL_MEMORY, PAGE_SIZE]
      omega
    · obtain ⟨_, _, b, _, _, _, _, _, _, _, haddr, _⟩ := h.curOk.slots hp
      rw [haddr]
      exact slot_aligned b
  · rw [h.curOk.walk_dir h h.curDir, ← h.cr3]

theorem Holds.reaches {p : Nat} {t : TaskStruct} (ht : m.tasks p = some t) {addr f : Nat} (ha : addr < 2 ^ 32)
    (hw : walk m.ram (L.dir p) addr = some f) : Reaches m f :=
  ⟨p, t, L.dir p, addr, ht, ha, (h.task p t ht).walk_dir h h.curDir, hw⟩

theorem Holds.reaches_window {p : Nat} {t : TaskStruct} (ht : m.tasks p = some t) {d : Nat} (hd : d < 1024)
    (hp : present (m.ram (L.dir p) d) = true) : Reaches m (frameOf (m.ram (L.dir p) d)) :=
  h.reaches ht (window_lt hd) ((h.task p t ht).dirOk.walk_window hd hp)

theorem Holds.reaches_dir {p : Nat} {t : TaskStruct} (ht : m.tasks p = some t) : Reaches m (L.dir p) := by
  have hD := (h.task p t ht).dirOk
  have := h.reaches_window ht (by decide) hD.self
  rwa [hD.self_frame] at this

theorem Holds.reaches_page {p : Nat} {t : TaskStruct} (ht : m.tasks p = some t) {d i : Nat}
    (hp : HasPage m.ram (L.dir p) d i) : Reaches m (pageOf m.ram (L.dir p) d i) :=
  h.reaches ht (pageAddr_lt (by have := hp.1; omega) hp.2.1) (walk_page hp)

theorem Holds.reaches_low : Reaches m L.pt1 := by
  have hD := h.curOk.dirOk
  have := h.reaches_window h.curTask (by decide) hD.low
  rwa [hD.low_frame] at this

theorem Holds.reaches_ktab {K : Nat} (hK : L.ktab = some K) : Reaches m K := by
  obtain ⟨hp, hf, _⟩ := h.curOk.dirOk.ktab K hK
  have := h.reaches_window h.curTask (by decide) hp
  rwa [hf] at this

theorem Holds.reaches_own {p : Nat} {t : TaskStruct} (ht : m.tasks p = some t) (hp : p ≠ 0) : Reaches m (L.own p) := by
  obtain ⟨K, a, _, hK, ha, _, _, _, hpa, hfa, _⟩ := (h.task p t ht).slots hp
  have := h.reaches ht (slot_lt ha) ((h.task p t ht).dirOk.walk_slot hK ha hpa)
  rwa [hfa] at this

end Reached

/-! ## Changes that keep the layout -/

section Congr

variable {ram ram' : Nat → Nat → Word} {L L' : Uses s} {D p : Nat} {t : TaskStruct}

theorem DirOk.congr (h : DirOk ram L D) (hw : ∀ d, 768 ≤ d → d < 1024 → ram' D d = ram D d) (hpt : L'.pt1 = L.pt1)
    (hk : L'.ktab = L.ktab) : DirOk ram' L' D := by
  have h768 := hw 768 (le_refl _) (by decide)
  have h769 := hw 769 (by decide) (by decide)
  have h1023 := hw 1023 (by decide) (by decide)
  refine ⟨?_, ?_, ?_, ?_, ?_, ?_, ?_, ?_, ?_, ?_⟩
  · rw [h1023]; exact h.self
  · rw [h1023]; exact h.self_frame
  · rw [h1023]; exact h.self_private
  · rw [h768]; exact h.low
  · rw [h768, hpt]; exact h.low_frame
  · rw [h768]; exact h.low_private
  · rw [h769, hk]; exact h.ktab
  · rw [h769, hk]; exact h.no_ktab
  · intro d hd hlt
    rw [hw d (by omega) (by omega)]
    exact h.rest d hd hlt
  · intro d hd hlt
    rw [hw d hd hlt]
    exact h.uncow d hd hlt

/-- The entries and the tables of the user half are the same. -/
def SameSpace (ram ram' : Nat → Nat → Word) (D : Nat) : Prop :=
  ∀ d, d < 768 → ram' D d = ram D d ∧
    (present (ram D d) = true → ∀ i, i < 1024 → ram' (frameOf (ram D d)) i = ram (frameOf (ram D d)) i)

theorem SameSpace.hasPage (h : SameSpace ram ram' D) {d i : Nat} : HasPage ram' D d i ↔ HasPage ram D d i := by
  constructor
  · rintro ⟨hd, hi, hp, hq⟩
    rw [(h d hd).1] at hp hq
    rw [(h d hd).2 hp i hi] at hq
    exact ⟨hd, hi, hp, hq⟩
  · rintro ⟨hd, hi, hp, hq⟩
    refine ⟨hd, hi, by rw [(h d hd).1]; exact hp, ?_⟩
    rw [(h d hd).1, (h d hd).2 hp i hi]
    exact hq

theorem SameSpace.pageOf (h : SameSpace ram ram' D) {d i : Nat} (hp : HasPage ram D d i) :
    pageOf ram' D d i = pageOf ram D d i := by
  obtain ⟨hd, hi, hp, _⟩ := hp
  rw [Mm.pageOf, Mm.pageOf, (h d hd).1, (h d hd).2 hp i hi]

theorem SpaceOk.congr (h : SpaceOk ram L D) (hs : SameSpace ram ram' D) : SpaceOk ram' L D := by
  refine ⟨?_, ?_, ?_, ?_, ?_, ?_⟩
  · intro d hd hp
    rw [(hs d hd).1] at hp ⊢
    exact h.table d hd hp
  · intro d i hp
    rw [hs.hasPage] at hp
    rw [hs.pageOf hp]
    exact h.page d i hp
  · intro hs' d i d' i' hp hp' heq
    rw [hs.hasPage] at hp hp'
    rw [hs.pageOf hp, hs.pageOf hp'] at heq
    exact h.inj hs' d i d' i' hp hp' heq
  · intro hs' d hd
    rw [(hs d hd).1]
    exact h.cow hs' d hd
  · intro hs' d hd
    rw [(hs d hd).1]
    exact h.protect hs' d hd
  · intro hs' d i hp
    rw [hs.hasPage] at hp
    rw [(hs d hp.1).1, (hs d hp.1).2 hp.2.2.1 i hp.2.1]
    exact h.unlock hs' d i hp

/-- The slots of a task in the kernel's page table are the same. -/
def SameSlots (ram ram' : Nat → Nat → Word) (L : Uses s) (t : TaskStruct) : Prop :=
  ∀ K k, L.ktab = some K → k < 1024 → (t.addr = slotAddr k ∨ t.pageDirectory = slotAddr k) → ram' K k = ram K k

theorem TaskOk.congr (h : TaskOk ram L p t) (hd : ∀ d, 768 ≤ d → d < 1024 → ram' (L.dir p) d = ram (L.dir p) d)
    (hs : SpaceOk ram' L (L.dir p)) (hk : SameSlots ram ram' L t) : TaskOk ram' L p t := by
  refine ⟨h.pid, h.lt, h.role, h.dirOk.congr hd rfl rfl, hs, h.boot, ?_, h.own⟩
  intro hp
  obtain ⟨K, a, b, hK, ha, hb, hne, haddr, hpa, hfa, hdir, hpb, hfb⟩ := h.slots hp
  have hwa := hk K a hK ha (Or.inl haddr)
  have hwb := hk K b hK hb (Or.inr hdir)
  refine ⟨K, a, b, hK, ha, hb, hne, haddr, ?_, ?_, hdir, ?_, ?_⟩
  · rw [hwa]; exact hpa
  · rw [hwa]; exact hfa
  · rw [hwb]; exact hpb
  · rw [hwb]; exact hfb

end Congr

theorem ne_of_role {L : Uses s} {f g : Nat} {r r' : Role} (hf : L.role f = r) (hg : L.role g = r') (h : r ≠ r') : f ≠ g :=
  fun he => h (hf.symm.trans (he ▸ hg))

section Change

variable {m m' : Machine} {L : Uses s}

/-- A change of memory that leaves alone what the layout speaks of. -/
theorem Holds.congr (h : Holds m L) (htasks : m'.tasks = m.tasks) (hcur : m'.current = m.current) (hcr3 : m'.cr3 = m.cr3)
    (hlow : ∀ i, i < 1024 → m'.ram L.pt1 i = m.ram L.pt1 i)
    (hdir : ∀ p t, m.tasks p = some t → ∀ d, d < 1024 → m'.ram (L.dir p) d = m.ram (L.dir p) d)
    (htab : ∀ p t, m.tasks p = some t → ∀ d, d < 768 → present (m.ram (L.dir p) d) = true → ∀ i, i < 1024 →
      m'.ram (frameOf (m.ram (L.dir p) d)) i = m.ram (frameOf (m.ram (L.dir p) d)) i)
    (hslot : ∀ p t, m.tasks p = some t → SameSlots m.ram m'.ram L t) : Holds m' L := by
  have hsame : ∀ p t, m.tasks p = some t → SameSpace m.ram m'.ram (L.dir p) := fun p t ht d hd =>
    ⟨hdir p t ht d (by omega), htab p t ht d hd⟩
  refine ⟨?_, h.low_role, h.ktab_role, ?_, ?_, ?_, ?_, ?_, ?_⟩
  · intro i hi
    rw [hlow i hi]
    exact h.low i hi
  · intro p t ht
    rw [htasks] at ht
    exact (h.task p t ht).congr (fun d _ hd => hdir p t ht d hd) ((h.task p t ht).spaceOk.congr (hsame p t ht))
      (hslot p t ht)
  · rw [htasks]; exact h.init
  · rw [htasks, hcur]; exact h.cur
  · rw [hcr3, hcur]; exact h.cr3
  · intro p t q u d d' ht hu hne hd hd'
    rw [htasks] at ht hu
    rw [hdir p t ht d (by omega), hdir q u hu d' (by omega)]
    exact h.sharing p t q u d d' ht hu hne hd hd'
  · intro hk
    rw [htasks]
    obtain ⟨h1, h2⟩ := h.single hk
    obtain ⟨t0, ht0⟩ := Option.isSome_iff_exists.mp h.init
    refine ⟨h1, fun d hd => ?_⟩
    rw [hdir 0 t0 ht0 d (by omega)]
    exact h2 d hd

/-- The frame is no table of any kind. -/
structure NoTable (m : Machine) (L : Uses s) (f : Nat) : Prop where
  low : f ≠ L.pt1
  ktab : ∀ K, L.ktab = some K → f ≠ K
  dir : ∀ p t, m.tasks p = some t → f ≠ L.dir p
  table : ∀ p t, m.tasks p = some t → ∀ d, d < 768 → present (m.ram (L.dir p) d) = true → f ≠ frameOf (m.ram (L.dir p) d)

theorem Holds.noTable_of_role (h : Holds m L) {f : Nat} (hf : L.role f = .data ∨ L.role f = .unused) : NoTable m L f := by
  have hne : ∀ {g r}, L.role g = r → r ≠ .data → r ≠ .unused → f ≠ g := by
    intro g r hg h1 h2
    rcases hf with hf | hf
    · exact ne_of_role hf hg h1.symm
    · exact ne_of_role hf hg h2.symm
  refine ⟨hne h.low_role (by decide) (by decide), fun K hK => hne (h.ktab_role K hK) (by decide) (by decide), ?_, ?_⟩
  · intro p t ht
    exact hne (h.task p t ht).role (by simp) (by simp)
  · intro p t ht d hd hp
    exact hne ((h.task p t ht).spaceOk.table d hd hp) (by simp) (by simp)

theorem Holds.noTable_of_unreached (h : Holds m L) {f : Nat} (hf : ¬ Reaches m f) : NoTable m L f := by
  refine ⟨?_, ?_, ?_, ?_⟩
  · rintro rfl
    exact hf h.reaches_low
  · rintro K hK rfl
    exact hf (h.reaches_ktab hK)
  · rintro p t ht rfl
    exact hf (h.reaches_dir ht)
  · rintro p t ht d hd hp rfl
    exact hf (h.reaches_window ht (by omega) hp)

/-- The contents of a frame that is no table do not matter. -/
theorem Holds.setFrame (h : Holds m L) {f : Nat} (hf : NoTable m L f) (g : Nat → Word) : Holds (m.setFrame f g) L := by
  refine h.congr rfl rfl rfl ?_ ?_ ?_ ?_
  · intro i _
    rw [setFrame_of_ne _ _ _ hf.low.symm]
  · intro p t ht d _
    rw [setFrame_of_ne _ _ _ (hf.dir p t ht).symm]
  · intro p t ht d hd hp i _
    rw [setFrame_of_ne _ _ _ (hf.table p t ht d hd hp).symm]
  · intro p t _ K k hK _ _
    rw [setFrame_of_ne _ _ _ (hf.ktab K hK).symm]

theorem Holds.setWord_data (h : Holds m L) {f : Nat} (hf : NoTable m L f) (i : Nat) (w : Word) :
    Holds (m.setWord f i w) L := h.setFrame hf _

/-- An entry of the kernel's page table that is no task's may be changed. -/
theorem Holds.setSlot (h : Holds m L) {K k : Nat} (hK : L.ktab = some K) (hk : k < 1024) (w : Word)
    (hfree : ∀ p t, m.tasks p = some t → t.addr ≠ slotAddr k ∧ t.pageDirectory ≠ slotAddr k) :
    Holds (m.setWord K k w) L := by
  have hrole := h.ktab_role K hK
  refine h.congr rfl rfl rfl ?_ ?_ ?_ ?_
  · intro i _
    exact setWord_of_ne _ _ _ _ (Or.inl (ne_of_role h.low_role hrole (by decide)))
  · intro p t ht d _
    exact setWord_of_ne _ _ _ _ (Or.inl (ne_of_role (h.task p t ht).role hrole (by simp)))
  · intro p t ht d hd hp i _
    exact setWord_of_ne _ _ _ _ (Or.inl (ne_of_role ((h.task p t ht).spaceOk.table d hd hp) hrole (by simp)))
  · intro p t ht K' k' hK' _ haddr
    apply setWord_of_ne
    right
    rintro rfl
    obtain ⟨h1, h2⟩ := hfree p t ht
    exact haddr.elim h1 h2

/-- The counters are not part of the layout. -/
theorem Holds.setCount (h : Holds m L) (f : Nat) (n : UInt8) : Holds (m.setCount f n) L :=
  h.congr rfl rfl rfl (fun _ _ => rfl) (fun _ _ _ _ _ => rfl) (fun _ _ _ _ _ _ _ _ => rfl)
    (fun _ _ _ _ _ _ _ _ => rfl)

/-- The frame has no use in the layout. -/
structure Spare (m : Machine) (L : Uses s) (f : Nat) : Prop where
  noTable : NoTable m L f
  page : ∀ p t, m.tasks p = some t → ∀ d i, HasPage m.ram (L.dir p) d i → f ≠ pageOf m.ram (L.dir p) d i
  own : ∀ p t, m.tasks p = some t → p ≠ 0 → f ≠ L.own p

theorem Holds.spare_of_unreached (h : Holds m L) {f : Nat} (hf : ¬ Reaches m f) : Spare m L f := by
  refine ⟨h.noTable_of_unreached hf, ?_, ?_⟩
  · rintro p t ht d i hp rfl
    exact hf (h.reaches_page ht hp)
  · rintro p t ht h0 rfl
    exact hf (h.reaches_own ht h0)

theorem Holds.spare_of_unused (h : Holds m L) {f : Nat} (hf : L.role f = .unused) : Spare m L f := by
  refine ⟨h.noTable_of_role (Or.inr hf), ?_, ?_⟩
  · intro p t ht d i hp
    exact ne_of_role hf ((h.task p t ht).spaceOk.page d i hp) (by simp)
  · intro p t ht h0
    exact ne_of_role hf ((h.task p t ht).own h0) (by simp)

/-- A layout with a new use for one frame. -/
def Uses.use (L : Uses s) (f : Nat) (r : Role) : Uses s := { L with role := Function.update L.role f r }

theorem use_role_of_ne (L : Uses s) {f g : Nat} (r : Role) (h : g ≠ f) : (L.use f r).role g = L.role g :=
  Function.update_of_ne h ..

theorem use_role_self (L : Uses s) (f : Nat) (r : Role) : (L.use f r).role f = r := Function.update_self ..

/-- A spare frame may get another role. -/
theorem Holds.use (h : Holds m L) {f : Nat} (hf : Spare m L f) (r : Role) : Holds m (L.use f r) := by
  have hne := hf.noTable
  refine ⟨h.low, ?_, ?_, ?_, h.init, h.cur, h.cr3, h.sharing, h.single⟩
  · exact (use_role_of_ne L r hne.low.symm).trans h.low_role
  · intro K hK
    exact (use_role_of_ne L r (hne.ktab K hK).symm).trans (h.ktab_role K hK)
  · intro p t ht
    have hp := h.task p t ht
    refine ⟨hp.pid, hp.lt, ?_, hp.dirOk.congr (fun _ _ _ => rfl) rfl rfl, ?_, hp.boot, hp.slots, ?_⟩
    · exact (use_role_of_ne L r (hne.dir p t ht).symm).trans hp.role
    · refine ⟨?_, ?_, hp.spaceOk.inj, hp.spaceOk.cow, hp.spaceOk.protect, hp.spaceOk.unlock⟩
      · intro d hd hpd
        exact (use_role_of_ne L r (hne.table p t ht d hd hpd).symm).trans (hp.spaceOk.table d hd hpd)
      · intro d i hpage
        exact (use_role_of_ne L r (hf.page p t ht d i hpage).symm).trans (hp.spaceOk.page d i hpage)
    · intro h0
      exact (use_role_of_ne L r (hf.own p t ht h0).symm).trans (hp.own h0)

/-- A change of the fields of tasks that the layout does not speak of. -/
theorem Holds.retask (h : Holds m L) (hram : m'.ram = m.ram) (hcr3 : m'.cr3 = m.cr3) (hcur : m'.current = m.current)
    (hsome : ∀ p, (m'.tasks p).isSome = (m.tasks p).isSome)
    (hkey : ∀ p t t', m.tasks p = some t → m'.tasks p = some t' →
      t'.pid = t.pid ∧ t'.addr = t.addr ∧ t'.pageDirectory = t.pageDirectory ∧ t'.ppid = t.ppid) : Holds m' L := by
  have hget : ∀ p t', m'.tasks p = some t' → ∃ t, m.tasks p = some t := by
    intro p t' ht'
    have := hsome p
    rw [ht'] at this
    exact Option.isSome_iff_exists.mp this.symm
  refine ⟨?_, h.low_role, h.ktab_role, ?_, ?_, ?_, ?_, ?_, ?_⟩
  · rw [hram]
    exact h.low
  · intro p t' ht'
    obtain ⟨t, ht⟩ := hget p t' ht'
    obtain ⟨h1, h2, h3, h4⟩ := hkey p t t' ht ht'
    have hp := h.task p t ht
    rw [hram]
    refine ⟨h1.trans hp.pid, hp.lt, hp.role, hp.dirOk, hp.spaceOk, ?_, ?_, hp.own⟩
    · rw [h2, h3, h4]
      exact hp.boot
    · rw [h2, h3]
      exact hp.slots
  · rw [hsome]
    exact h.init
  · rw [hcur, hsome]
    exact h.cur
  · rw [hcr3, hcur]
    exact h.cr3
  · intro p t' q u' d d' ht' hu'
    obtain ⟨t, ht⟩ := hget p t' ht'
    obtain ⟨u, hu⟩ := hget q u' hu'
    rw [hram]
    exact h.sharing p t q u d d' ht hu
  · intro hk
    rw [hram]
    obtain ⟨h1, h2⟩ := h.single hk
    refine ⟨fun p hp => h1 p ?_, h2⟩
    rwa [hsome] at hp

end Change

/-! ## Changes of the running task's user half -/

section Space

variable {m m' : Machine} {L : Uses s}

theorem Holds.current_role (h : Holds m L) : L.role m.cr3 = .dir m.current := by
  rw [h.cr3]
  exact h.curOk.role

theorem Holds.cr3_ne_dir (h : Holds m L) {p : Nat} {t : TaskStruct} (ht : m.tasks p = some t) (hp : p ≠ m.current) :
    L.dir p ≠ m.cr3 :=
  ne_of_role (h.task p t ht).role h.current_role (by simpa using hp)

/-- A change in the user half of the running task that the other tasks do not see. -/
theorem Holds.changeSpace (h : Holds m L) (htasks : m'.tasks = m.tasks) (hcur : m'.current = m.current)
    (hcr3 : m'.cr3 = m.cr3) (hlow : ∀ i, i < 1024 → m'.ram L.pt1 i = m.ram L.pt1 i)
    (hhigh : ∀ d, 768 ≤ d → d < 1024 → m'.ram m.cr3 d = m.ram m.cr3 d)
    (hslot : ∀ p t, m.tasks p = some t → SameSlots m.ram m'.ram L t)
    (hother : ∀ p t, m.tasks p = some t → p ≠ m.current →
      (∀ d, d < 1024 → m'.ram (L.dir p) d = m.ram (L.dir p) d) ∧ SameSpace m.ram m'.ram (L.dir p))
    (hspace : SpaceOk m'.ram L m.cr3)
    (hshare : ∀ q u d d', m.tasks q = some u → q ≠ m.current → d < 768 → d' < 768 → present (m'.ram m.cr3 d) = true →
      present (m.ram (L.dir q) d') = true → frameOf (m'.ram m.cr3 d) = frameOf (m.ram (L.dir q) d') →
      shared (m'.ram m.cr3 d) = true ∧ shared (m.ram (L.dir q) d') = true)
    (hown : ∀ d d', d ≠ d' → d < 768 → d' < 768 → present (m'.ram m.cr3 d) = true → present (m'.ram m.cr3 d') = true →
      frameOf (m'.ram m.cr3 d) = frameOf (m'.ram m.cr3 d') → shared (m'.ram m.cr3 d) = true)
    (hsingle : L.ktab = none → ∀ d, d < 768 → shared (m'.ram m.cr3 d) = false) : Holds m' L := by
  refine ⟨?_, h.low_role, h.ktab_role, ?_, ?_, ?_, ?_, ?_, ?_⟩
  · intro i hi
    rw [hlow i hi]
    exact h.low i hi
  · intro p t ht
    rw [htasks] at ht
    by_cases hp : p = m.current
    · subst hp
      rw [h.cr3] at hhigh hspace
      exact (h.task _ t ht).congr hhigh hspace (hslot _ t ht)
    · obtain ⟨hd, hs⟩ := hother p t ht hp
      exact (h.task p t ht).congr (fun d _ hlt => hd d hlt) ((h.task p t ht).spaceOk.congr hs) (hslot p t ht)
  · rw [htasks]; exact h.init
  · rw [htasks, hcur]; exact h.cur
  · rw [hcr3, hcur]; exact h.cr3
  · intro p t q u d d' ht hu hne hd hd' hp hq heq
    rw [htasks] at ht hu
    by_cases hpc : p = m.current
    · subst hpc
      rw [← h.cr3] at hp heq ⊢
      by_cases hqc : q = m.current
      · subst hqc
        rw [← h.cr3] at hq heq
        exact hown d d' (hne.resolve_left (not_not.mpr rfl)) hd hd' hp hq heq
      · rw [(hother q u hu hqc).1 d' (by omega)] at hq heq
        exact (hshare q u d d' hu hqc hd hd' hp hq heq).1
    · rw [(hother p t ht hpc).1 d (by omega)] at hp heq ⊢
      by_cases hqc : q = m.current
      · subst hqc
        rw [← h.cr3] at hq heq
        exact (hshare p t d' d ht hpc hd' hd hq hp heq.symm).2
      · rw [(hother q u hu hqc).1 d' (by omega)] at hq heq
        exact h.sharing p t q u d d' ht hu hne hd hd' hp hq heq
  · intro hk
    rw [htasks]
    obtain ⟨h1, _⟩ := h.single hk
    have h0 : m.current = 0 := h1 _ h.cur
    refine ⟨h1, fun d hd => ?_⟩
    have := hsingle hk d hd
    rwa [h.cr3, h0] at this

/-- The running task shares no table with another task, and has none twice, but those that are flagged. -/
theorem Holds.cur_sharing (h : Holds m L) {d : Nat} (hd : d < 768) (hp : present (m.ram m.cr3 d) = true) {q : Nat}
    {u : TaskStruct} (hu : m.tasks q = some u) {d' : Nat} (hne : q ≠ m.current ∨ d ≠ d') (hd' : d' < 768)
    (hp' : present (m.ram (L.dir q) d') = true) (heq : frameOf (m.ram m.cr3 d) = frameOf (m.ram (L.dir q) d')) :
    shared (m.ram m.cr3 d) = true ∧ shared (m.ram (L.dir q) d') = true := by
  rw [h.cr3] at hp heq ⊢
  exact ⟨h.sharing _ _ q u d d' h.curTask hu (hne.imp_left Ne.symm) hd hd' hp hp' heq,
    h.sharing q u _ _ d' d hu h.curTask (hne.imp_right Ne.symm) hd' hd hp' hp heq.symm⟩

theorem Holds.own_sharing (h : Holds m L) {d d' : Nat} (hne : d ≠ d') (hd : d < 768) (hd' : d' < 768)
    (hp : present (m.ram m.cr3 d) = true) (hp' : present (m.ram m.cr3 d') = true)
    (heq : frameOf (m.ram m.cr3 d) = frameOf (m.ram m.cr3 d')) : shared (m.ram m.cr3 d) = true := by
  have hdir := h.cr3
  exact (h.cur_sharing hd hp h.curTask (Or.inr hne) hd' (hdir ▸ hp') (hdir ▸ heq)).1

/-- A private table of the running task is not a table of another task. -/
theorem Holds.private_table (h : Holds m L) {d : Nat} (hd : d < 768) (hp : present (m.ram m.cr3 d) = true)
    (hs : shared (m.ram m.cr3 d) = false) {q : Nat} {u : TaskStruct} (hu : m.tasks q = some u) (hq : q ≠ m.current)
    {d' : Nat} (hd' : d' < 768) (hp' : present (m.ram (L.dir q) d') = true) :
    frameOf (m.ram (L.dir q) d') ≠ frameOf (m.ram m.cr3 d) := by
  intro heq
  have := (h.cur_sharing hd hp hu (Or.inl hq) hd' hp' heq.symm).1
  rw [hs] at this
  cases this

/-- A private table of the running task stands under one entry. -/
theorem Holds.table_inj (h : Holds m L) {d d' : Nat} (hd : d < 768) (hd' : d' < 768) (hp : present (m.ram m.cr3 d) = true)
    (hp' : present (m.ram m.cr3 d') = true) (heq : frameOf (m.ram m.cr3 d) = frameOf (m.ram m.cr3 d'))
    (hs : shared (m.ram m.cr3 d') = false) : d = d' := by
  by_contra hne
  have := h.own_sharing (Ne.symm hne) hd' hd hp' hp heq.symm
  rw [hs] at this
  cases this

theorem SpaceOk.table_inj {L : Layout} {ram : Nat → Nat → Word} {D : Nat} (h : SpaceOk ram L D) {d d' : Nat} (hd : d < 768)
    (hd' : d' < 768) (hp : present (ram D d) = true) (hp' : present (ram D d') = true)
    (heq : frameOf (ram D d) = frameOf (ram D d')) : d = d' := by
  have h1 := h.table d hd hp
  rw [heq, h.table d' hd' hp'] at h1
  simpa using h1.symm

/-- The frame is mapped by no page of the directory but, perhaps, the given one. -/
def OnlyAt (ram : Nat → Nat → Word) (D d i f : Nat) : Prop :=
  ∀ d' i', HasPage ram D d' i' → pageOf ram D d' i' = f → d' = d ∧ i' = i

section SetPte

variable {d i : Nat} {w : Word}

/-- The directory of the running task stays. -/
theorem Holds.setPte_dir (h : Holds m L) (hd : d < 768) (hp : present (m.ram m.cr3 d) = true) (d' : Nat) :
    (m.setWord (frameOf (m.ram m.cr3 d)) i w).ram m.cr3 d' = m.ram m.cr3 d' :=
  setWord_of_ne _ _ _ _ (Or.inl (ne_of_role h.current_role (h.curSpace.table d hd hp) (by simp)))

/-- The pages of the running task when a private table gets a new entry. -/
theorem Holds.setPte_page (h : Holds m L) (hd : d < 768) (hp : present (m.ram m.cr3 d) = true)
    (hs : shared (m.ram m.cr3 d) = false) {d' i' : Nat}
    (hpage : HasPage (m.setWord (frameOf (m.ram m.cr3 d)) i w).ram m.cr3 d' i') :
    (d' = d ∧ i' = i ∧ present w = true ∧
      pageOf (m.setWord (frameOf (m.ram m.cr3 d)) i w).ram m.cr3 d' i' = frameOf w) ∨
    (¬ (d' = d ∧ i' = i) ∧ HasPage m.ram m.cr3 d' i' ∧
      pageOf (m.setWord (frameOf (m.ram m.cr3 d)) i w).ram m.cr3 d' i' = pageOf m.ram m.cr3 d' i') := by
  obtain ⟨hd', hi', hp', hq'⟩ := hpage
  rw [pageOf]
  rw [h.setPte_dir hd hp, setWord_ram] at hq' ⊢
  rw [h.setPte_dir hd hp] at hp'
  by_cases hat : d' = d ∧ i' = i
  · obtain ⟨rfl, rfl⟩ := hat
    left
    rw [if_pos ⟨rfl, rfl⟩] at hq' ⊢
    exact ⟨rfl, rfl, hq', rfl⟩
  · right
    have hno : ¬ (frameOf (m.ram m.cr3 d') = frameOf (m.ram m.cr3 d) ∧ i' = i) := fun hc =>
      hat ⟨h.table_inj hd' hd hp' hp hc.1 hs, hc.2⟩
    rw [if_neg hno] at hq' ⊢
    exact ⟨hat, ⟨hd', hi', hp', hq'⟩, rfl⟩

theorem Holds.setPte_space (h : Holds m L) (hd : d < 768) (hp : present (m.ram m.cr3 d) = true)
    (hs : shared (m.ram m.cr3 d) = false)
    (hw : present w = true → L.role (frameOf w) = .data ∧ (s = true → OnlyAt m.ram m.cr3 d i (frameOf w)))
    (hunlock : s = true → present w = true → shared w = true →
      user (m.ram m.cr3 d) = true ∧ writable (m.ram m.cr3 d) = true) :
    SpaceOk (m.setWord (frameOf (m.ram m.cr3 d)) i w).ram L m.cr3 := by
  have hdir : ∀ d', (m.setWord (frameOf (m.ram m.cr3 d)) i w).ram m.cr3 d' = m.ram m.cr3 d' := h.setPte_dir hd hp
  refine ⟨?_, ?_, ?_, ?_, ?_, ?_⟩
  · intro d' hd' hp'
    rw [hdir] at hp' ⊢
    exact h.curSpace.table d' hd' hp'
  · intro d' i' hpage
    rcases h.setPte_page hd hp hs hpage with ⟨_, _, hpw, hf⟩ | ⟨_, hold, hf⟩
    · rw [hf]
      exact (hw hpw).1
    · rw [hf]
      exact h.curSpace.page d' i' hold
  · intro hst d1 i1 d2 i2 h1 h2 heq
    rcases h.setPte_page hd hp hs h1 with ⟨rfl, rfl, hpw, hf1⟩ | ⟨hn1, hold1, hf1⟩
    · rcases h.setPte_page hd hp hs h2 with ⟨rfl, rfl, _, _⟩ | ⟨hn2, hold2, hf2⟩
      · exact ⟨rfl, rfl⟩
      · rw [hf1, hf2] at heq
        exact absurd ((hw hpw).2 hst d2 i2 hold2 heq.symm) hn2
    · rcases h.setPte_page hd hp hs h2 with ⟨rfl, rfl, hpw, hf2⟩ | ⟨hn2, hold2, hf2⟩
      · rw [hf1, hf2] at heq
        exact absurd ((hw hpw).2 hst d1 i1 hold1 heq) hn1
      · rw [hf1, hf2] at heq
        exact h.curSpace.inj hst d1 i1 d2 i2 hold1 hold2 heq
  · intro hst d' hd'
    rw [hdir]
    exact h.curSpace.cow hst d' hd'
  · intro hst d' hd'
    rw [hdir]
    exact h.curSpace.protect hst d' hd'
  · rintro hst d' i' ⟨hd', hi', hp', hq'⟩ hs' hsw
    rw [hdir, setWord_ram] at hq' hsw
    rw [hdir] at hp' hs' ⊢
    by_cases hat : frameOf (m.ram m.cr3 d') = frameOf (m.ram m.cr3 d) ∧ i' = i
    · rw [if_pos hat] at hq' hsw
      rw [h.table_inj hd' hd hp' hp hat.1 hs]
      exact hunlock hst hq' hsw
    · rw [if_neg hat] at hq' hsw
      exact h.curSpace.unlock hst d' i' ⟨hd', hi', hp', hq'⟩ hs' hsw

/-- **One page-table entry** of a private table of the running task. -/
theorem Holds.setPte (h : Holds m L) (hd : d < 768) (hp : present (m.ram m.cr3 d) = true)
    (hs : shared (m.ram m.cr3 d) = false)
    (hw : present w = true → L.role (frameOf w) = .data ∧ (s = true → OnlyAt m.ram m.cr3 d i (frameOf w)))
    (hunlock : s = true → present w = true → shared w = true →
      user (m.ram m.cr3 d) = true ∧ writable (m.ram m.cr3 d) = true) :
    Holds (m.setWord (frameOf (m.ram m.cr3 d)) i w) L := by
  have hrole := h.curSpace.table d hd hp
  have hdir : ∀ d', (m.setWord (frameOf (m.ram m.cr3 d)) i w).ram m.cr3 d' = m.ram m.cr3 d' := h.setPte_dir hd hp
  have hslot : ∀ p t, m.tasks p = some t → SameSlots m.ram (m.setWord (frameOf (m.ram m.cr3 d)) i w).ram L t :=
    fun p t _ K k hK _ _ => setWord_of_ne _ _ _ _ (Or.inl (ne_of_role (h.ktab_role K hK) hrole (by simp)))
  refine h.changeSpace rfl rfl rfl ?_ (fun d' _ _ => hdir d') hslot ?_ (h.setPte_space hd hp hs hw hunlock) ?_ ?_ ?_
  · intro j _
    exact setWord_of_ne _ _ _ _ (Or.inl (ne_of_role h.low_role hrole (by simp)))
  · intro q u hu hq
    have hqd : ∀ d', (m.setWord (frameOf (m.ram m.cr3 d)) i w).ram (L.dir q) d' = m.ram (L.dir q) d' := fun d' =>
      setWord_of_ne _ _ _ _ (Or.inl (ne_of_role (h.task q u hu).role hrole (by simp)))
    refine ⟨fun d' _ => hqd d', fun d' hd' => ⟨hqd d', fun hp' j _ => ?_⟩⟩
    exact setWord_of_ne _ _ _ _ (Or.inl (h.private_table hd hp hs hu hq hd' hp'))
  · intro q u d' d'' hu hq hd' hd'' hp' hq' heq
    rw [hdir] at hp' heq ⊢
    exact h.cur_sharing hd' hp' hu (Or.inl hq) hd'' hq' heq
  · intro d' d'' hne hd' hd'' hp' hp'' heq
    rw [hdir] at hp' hp'' heq ⊢
    rw [hdir] at heq
    exact h.own_sharing hne hd' hd'' hp' hp'' heq
  · intro hk d' hd'
    rw [hdir, h.cr3, (h.single hk).1 _ h.cur]
    exact (h.single hk).2 d' hd'

end SetPte

section SetPde

/-- The word `w` may become entry `d` of the running task: the table it names is new to the others, and its pages are
new to the rest of the address space. -/
structure NewEntry (m : Machine) (L : Uses s) (d : Nat) (w : Word) : Prop where
  table : present w = true → L.role (frameOf w) = .table (entryOf s d)
  fresh : present w = true → ∀ q u d', m.tasks q = some u → d' < 768 → q ≠ m.current ∨ d' ≠ d →
    present (m.ram (L.dir q) d') = true → frameOf (m.ram (L.dir q) d') ≠ frameOf w
  data : present w = true → ∀ i, i < 1024 → present (m.ram (frameOf w) i) = true →
    L.role (frameOf (m.ram (frameOf w) i)) = .data ∧ (s = true →
    (∀ d' i', d' ≠ d → HasPage m.ram m.cr3 d' i' → pageOf m.ram m.cr3 d' i' ≠ frameOf (m.ram (frameOf w) i)) ∧
    ∀ i', i' < 1024 → present (m.ram (frameOf w) i') = true →
      frameOf (m.ram (frameOf w) i) = frameOf (m.ram (frameOf w) i') → i = i')
  cow : s = true → cowDir w = shared w
  protect : s = true → shared w = true → writable w = false
  unlock : s = true → present w = true → shared w = false → ∀ i, i < 1024 →
    present (m.ram (frameOf w) i) = true → shared (m.ram (frameOf w) i) = true → user w = true ∧ writable w = true
  single : L.ktab = none → shared w = false

variable {d : Nat} {w : Word}

theorem setPde_table (h : Holds m L) (hN : NewEntry m L d w) {d' : Nat} (hd' : d' < 768)
    (hp' : present ((m.setWord m.cr3 d w).ram m.cr3 d') = true) :
    L.role (frameOf ((m.setWord m.cr3 d w).ram m.cr3 d')) = .table (entryOf s d') := by
  by_cases hne : d' = d
  · subst hne
    rw [setWord_self] at hp' ⊢
    exact hN.table hp'
  · rw [setWord_of_ne _ _ _ _ (Or.inr hne)] at hp' ⊢
    exact h.curSpace.table d' hd' hp'

/-- The words of a table of the running task. -/
theorem setPde_entry (h : Holds m L) (hN : NewEntry m L d w) {d' : Nat} (hd' : d' < 768)
    (hp' : present ((m.setWord m.cr3 d w).ram m.cr3 d') = true) (i : Nat) :
    (m.setWord m.cr3 d w).ram (frameOf ((m.setWord m.cr3 d w).ram m.cr3 d')) i =
      m.ram (frameOf ((m.setWord m.cr3 d w).ram m.cr3 d')) i :=
  setWord_of_ne _ _ _ _ (Or.inl (ne_of_role (setPde_table h hN hd' hp') h.current_role (by simp)))

/-- The pages of the running task with the new entry. -/
theorem setPde_page (h : Holds m L) (hN : NewEntry m L d w) {d' i' : Nat}
    (hpage : HasPage (m.setWord m.cr3 d w).ram m.cr3 d' i') :
    (d' = d ∧ i' < 1024 ∧ present w = true ∧ present (m.ram (frameOf w) i') = true ∧
      pageOf (m.setWord m.cr3 d w).ram m.cr3 d' i' = frameOf (m.ram (frameOf w) i')) ∨
    (d' ≠ d ∧ HasPage m.ram m.cr3 d' i' ∧
      pageOf (m.setWord m.cr3 d w).ram m.cr3 d' i' = pageOf m.ram m.cr3 d' i') := by
  obtain ⟨hd', hi', hp', hq'⟩ := hpage
  rw [pageOf]
  rw [setPde_entry h hN hd' hp'] at hq' ⊢
  by_cases hne : d' = d
  · subst hne
    left
    rw [setWord_self] at hp' hq' ⊢
    exact ⟨rfl, hi', hp', hq', rfl⟩
  · right
    rw [setWord_of_ne _ _ _ _ (Or.inr hne)] at hp' hq' ⊢
    exact ⟨hne, ⟨hd', hi', hp', hq'⟩, rfl⟩

theorem setPde_inj (h : Holds m L) (hN : NewEntry m L d w) (hst : s = true) {d1 i1 d2 i2 : Nat}
    (h1 : HasPage (m.setWord m.cr3 d w).ram m.cr3 d1 i1) (h2 : HasPage (m.setWord m.cr3 d w).ram m.cr3 d2 i2)
    (heq : pageOf (m.setWord m.cr3 d w).ram m.cr3 d1 i1 = pageOf (m.setWord m.cr3 d w).ram m.cr3 d2 i2) :
    d1 = d2 ∧ i1 = i2 := by
  rcases setPde_page h hN h1 with ⟨rfl, hi1, hpw, hpi1, hf1⟩ | ⟨hn1, hold1, hf1⟩
  · rcases setPde_page h hN h2 with ⟨rfl, hi2, _, hpi2, hf2⟩ | ⟨hn2, hold2, hf2⟩
    · rw [hf1, hf2] at heq
      exact ⟨rfl, ((hN.data hpw i1 hi1 hpi1).2 hst).2 i2 hi2 hpi2 heq⟩
    · rw [hf1, hf2] at heq
      exact absurd heq.symm (((hN.data hpw i1 hi1 hpi1).2 hst).1 d2 i2 hn2 hold2)
  · rcases setPde_page h hN h2 with ⟨rfl, hi2, hpw, hpi2, hf2⟩ | ⟨hn2, hold2, hf2⟩
    · rw [hf1, hf2] at heq
      exact absurd heq (((hN.data hpw i2 hi2 hpi2).2 hst).1 d1 i1 hn1 hold1)
    · rw [hf1, hf2] at heq
      exact h.curSpace.inj hst d1 i1 d2 i2 hold1 hold2 heq

theorem setPde_space (h : Holds m L) (hN : NewEntry m L d w) : SpaceOk (m.setWord m.cr3 d w).ram L m.cr3 := by
  have hself : (m.setWord m.cr3 d w).ram m.cr3 d = w := setWord_self ..
  have hdir : ∀ d', d' ≠ d → (m.setWord m.cr3 d w).ram m.cr3 d' = m.ram m.cr3 d' := fun d' hne =>
    setWord_of_ne _ _ _ _ (Or.inr hne)
  refine ⟨fun d' => setPde_table h hN, ?_, fun hst d1 i1 d2 i2 => setPde_inj h hN hst, ?_, ?_, ?_⟩
  · intro d' i' hpage
    rcases setPde_page h hN hpage with ⟨_, hi', hpw, hpi, hf⟩ | ⟨_, hold, hf⟩
    · rw [hf]
      exact (hN.data hpw i' hi' hpi).1
    · rw [hf]
      exact h.curSpace.page d' i' hold
  · intro hst d' hd'
    by_cases hne : d' = d
    · subst hne
      rw [hself]
      exact hN.cow hst
    · rw [hdir d' hne]
      exact h.curSpace.cow hst d' hd'
  · intro hst d' hd'
    by_cases hne : d' = d
    · subst hne
      rw [hself]
      exact hN.protect hst
    · rw [hdir d' hne]
      exact h.curSpace.protect hst d' hd'
  · rintro hst d' i' ⟨hd', hi', hp', hq'⟩ hs' hsw
    rw [setPde_entry h hN hd' hp'] at hq' hsw
    by_cases hne : d' = d
    · subst hne
      rw [hself] at hp' hq' hs' hsw ⊢
      exact hN.unlock hst hp' hs' i' hi' hq' hsw
    · rw [hdir d' hne] at hp' hq' hs' hsw ⊢
      exact h.curSpace.unlock hst d' i' ⟨hd', hi', hp', hq'⟩ hs' hsw

/-- Two entries of the running task that name one table are flagged. -/
theorem setPde_sharing (h : Holds m L) (hN : NewEntry m L d w) {d' d'' : Nat} (hne : d' ≠ d'') (hd' : d' < 768)
    (hd'' : d'' < 768) (hp' : present ((m.setWord m.cr3 d w).ram m.cr3 d') = true)
    (hp'' : present ((m.setWord m.cr3 d w).ram m.cr3 d'') = true)
    (heq : frameOf ((m.setWord m.cr3 d w).ram m.cr3 d') = frameOf ((m.setWord m.cr3 d w).ram m.cr3 d'')) :
    shared ((m.setWord m.cr3 d w).ram m.cr3 d') = true := by
  have hself : (m.setWord m.cr3 d w).ram m.cr3 d = w := setWord_self ..
  have hdir : ∀ d', d' ≠ d → (m.setWord m.cr3 d w).ram m.cr3 d' = m.ram m.cr3 d' := fun d' hne =>
    setWord_of_ne _ _ _ _ (Or.inr hne)
  have hcur : ∀ {e}, present (m.ram m.cr3 e) = true → present (m.ram (L.dir m.current) e) = true :=
    fun {e} hp => h.cr3 ▸ hp
  by_cases he : d' = d
  · subst he
    rw [hself] at hp' heq
    rw [hdir d'' hne.symm] at hp'' heq
    rw [h.cr3] at heq
    exact absurd heq.symm (hN.fresh hp' _ _ d'' h.curTask hd'' (Or.inr hne.symm) (hcur hp''))
  · rw [hdir d' he] at hp' heq ⊢
    by_cases he' : d'' = d
    · subst he'
      rw [hself] at hp'' heq
      rw [h.cr3] at heq
      exact absurd heq (hN.fresh hp'' _ _ d' h.curTask hd' (Or.inr hne) (hcur hp'))
    · rw [hdir d'' he'] at hp'' heq
      exact h.own_sharing hne hd' hd'' hp' hp'' heq

/-- **One directory entry** of the running task. -/
theorem Holds.setPde (h : Holds m L) (hd : d < 768) (hN : NewEntry m L d w) : Holds (m.setWord m.cr3 d w) L := by
  have hself : (m.setWord m.cr3 d w).ram m.cr3 d = w := setWord_self ..
  have hdir : ∀ d', d' ≠ d → (m.setWord m.cr3 d w).ram m.cr3 d' = m.ram m.cr3 d' := fun d' hne =>
    setWord_of_ne _ _ _ _ (Or.inr hne)
  have hfar : ∀ f, f ≠ m.cr3 → ∀ i, (m.setWord m.cr3 d w).ram f i = m.ram f i := fun f hf i =>
    setWord_of_ne _ _ _ _ (Or.inl hf)
  have hslot : ∀ p t, m.tasks p = some t → SameSlots m.ram (m.setWord m.cr3 d w).ram L t :=
    fun p t _ K k hK _ _ => hfar K (ne_of_role (h.ktab_role K hK) h.current_role (by simp)) k
  refine h.changeSpace rfl rfl rfl ?_ (fun d' hle _ => hdir d' (by omega)) hslot ?_ (setPde_space h hN) ?_
    (fun d' d'' => setPde_sharing h hN) ?_
  · intro j _
    exact hfar _ (ne_of_role h.low_role h.current_role (by simp)) j
  · intro q u hu hq
    have hqd := hfar _ (h.cr3_ne_dir hu hq)
    refine ⟨fun d' _ => hqd d', fun d' hd' => ⟨hqd d', fun hp' j _ => ?_⟩⟩
    exact hfar _ (ne_of_role ((h.task q u hu).spaceOk.table d' hd' hp') h.current_role (by simp)) j
  · intro q u d' d'' hu hq hd' hd'' hp' hq' heq
    by_cases hne : d' = d
    · subst hne
      rw [hself] at hp' heq
      exact absurd heq.symm (hN.fresh hp' q u d'' hu hd'' (Or.inl hq) hq')
    · rw [hdir d' hne] at hp' heq ⊢
      exact h.cur_sharing hd' hp' hu (Or.inl hq) hd'' hq' heq
  · intro hk d' hd'
    by_cases hne : d' = d
    · subst hne
      rw [hself]
      exact hN.single hk
    · rw [hdir d' hne, h.cr3, (h.single hk).1 _ h.cur]
      exact (h.single hk).2 d' hd'

end SetPde

end Space

end Raampjes.Mm
