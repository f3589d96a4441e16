import Raampjes.Mm.Paging

/-!
# What the entry functions do

`Env` is what the kernel relies on when it reaches its own tables: the last entry of the directory in CR3 names that
directory, and `current->page_directory` is an address of it. In such a state the functions on entries are lookups and
stores in frames (`dirEntry_ok`, `getPageEntry_ok`, `pageFrame_ok`, `pagePresent_ok`, `storeEntry_ok`), and copying or
clearing a page is one change of a frame (`copyPage_ok`, `clearTable_ok`).
-/

namespace Raampjes.Mm

open Progs

/-! ## Addresses -/

theorem dirIndex_lt {addr : Nat} (h : addr < 2 ^ 32) : dirIndex addr < 1024 := by
  rw [dirIndex]
  omega

theorem pageTableIndex_lt (addr : Nat) : pageTableIndex addr < 1024 := Nat.mod_lt _ (by decide)

theorem dirIndex_user {addr : Nat} (h : addr < KERNEL_MEMORY) : dirIndex addr < 768 := by
  rw [KERNEL_MEMORY] at h
  rw [dirIndex]
  omega

/-- The window page of directory entry `d`. -/
def window (d : Nat) : Nat := 0xFFC00000 + PAGE_SIZE * d

theorem getPageTable_eq {addr : Nat} (h : dirIndex addr ≤ 1024) : getPageTable addr = window (dirIndex addr) := by
  rw [getPageTable, window, PAGE_SIZE]
  omega

theorem dirIndex_window {d off : Nat} (hd : d < 1024) (ho : off < PAGE_SIZE) : dirIndex (window d + off) = 1023 := by
  rw [PAGE_SIZE] at ho
  rw [dirIndex, window, PAGE_SIZE]
  omega

theorem pageTableIndex_window {d off : Nat} (hd : d < 1024) (ho : off < PAGE_SIZE) :
    pageTableIndex (window d + off) = d := by
  rw [PAGE_SIZE] at ho
  rw [pageTableIndex, window, PAGE_SIZE]
  omega

theorem wordIndex_add {base i : Nat} (hb : base % PAGE_SIZE = 0) (hi : i < 1024) : wordIndex (base + 4 * i) = i := by
  rw [PAGE_SIZE] at hb
  rw [wordIndex, PAGE_SIZE]
  omega

theorem window_aligned (d : Nat) : window d % PAGE_SIZE = 0 := by
  rw [window, PAGE_SIZE]
  omega

theorem entry_offset {i : Nat} (hi : i < 1024) : 4 * i < PAGE_SIZE := by
  rw [PAGE_SIZE]
  omega

/-- All addresses of a page are translated alike. -/
theorem walk_add (ram : Nat → Nat → Word) (dir : Nat) {base off : Nat} (hb : base % PAGE_SIZE = 0)
    (ho : off < PAGE_SIZE) : walk ram dir (base + off) = walk ram dir base := by
  have hd : dirIndex (base + off) = dirIndex base := by
    simp only [PAGE_SIZE, dirIndex] at *
    omega
  have hp : pageTableIndex (base + off) = pageTableIndex base := by
    simp only [PAGE_SIZE, pageTableIndex] at *
    omega
  rw [walk, walk, hd, hp]

/-- A store to a frame that is neither the directory nor the table of an address keeps its translation. -/
theorem walk_congr {ram ram' : Nat → Nat → Word} {dir addr : Nat}
    (hd : ram' dir (dirIndex addr) = ram dir (dirIndex addr))
    (ht : ram' (frameOf (ram dir (dirIndex addr))) (pageTableIndex addr) =
      ram (frameOf (ram dir (dirIndex addr))) (pageTableIndex addr)) :
    walk ram' dir addr = walk ram dir addr := by
  rw [walk, walk, hd, ht]

/-! ## Reaching the tables -/

/-- The kernel can reach its page directory and the page tables. -/
structure Env (m : Machine) : Prop where
  self : present (m.ram m.cr3 1023) = true
  self_frame : frameOf (m.ram m.cr3 1023) = m.cr3
  aligned : m.cur.pageDirectory % PAGE_SIZE = 0
  dir : walk m.ram m.cr3 m.cur.pageDirectory = some m.cr3

section Env

variable {m m' : Machine}

theorem Env.walk_dir (h : Env m) {i : Nat} (hi : i < 1024) :
    walk m.ram m.cr3 (m.cur.pageDirectory + 4 * i) = some m.cr3 := by
  rw [walk_add _ _ h.aligned (entry_offset hi)]
  exact h.dir

/-- Through the window page of entry `d` the frame that the entry names is reached. -/
theorem Env.walk_window (h : Env m) {d off : Nat} (hd : d < 1024) (ho : off < PAGE_SIZE) :
    walk m.ram m.cr3 (window d + off) =
      if present (m.ram m.cr3 d) then some (frameOf (m.ram m.cr3 d)) else none := by
  simp only [walk, dirIndex_window hd ho, pageTableIndex_window hd ho, h.self, h.self_frame, Bool.true_and]

theorem dirEntry_ok (h : Env m) {i : Nat} (hi : i < 1024) {v : Word} :
    Returns (dirEntry i) m v m' ↔ v = m.ram m.cr3 i ∧ m' = m := by
  simp only [dirEntry, bind_ok, gets_ok, loadWord_ok]
  constructor
  · rintro ⟨t, _, ⟨rfl, rfl⟩, f, hf, rfl, rfl⟩
    rw [h.walk_dir hi, Option.some.injEq] at hf
    rw [← hf, wordIndex_add h.aligned hi]
    exact ⟨rfl, rfl⟩
  · rintro ⟨rfl, rfl⟩
    exact ⟨_, _, ⟨rfl, rfl⟩, _, h.walk_dir hi, by rw [wordIndex_add h.aligned hi], rfl⟩

theorem setDirEntry_ok (h : Env m) {i : Nat} (hi : i < 1024) {w : Word} {u : Unit} :
    Returns (setDirEntry i w) m u m' ↔ m' = m.setWord m.cr3 i w := by
  simp only [setDirEntry, bind_ok, gets_ok, storeWord_ok]
  constructor
  · rintro ⟨t, _, ⟨rfl, rfl⟩, f, hf, rfl⟩
    rw [h.walk_dir hi, Option.some.injEq] at hf
    rw [← hf, wordIndex_add h.aligned hi]
  · rintro rfl
    exact ⟨_, _, ⟨rfl, rfl⟩, _, h.walk_dir hi, by rw [wordIndex_add h.aligned hi]⟩

/-- The directory entry that an address goes through. -/
def Machine.pde (m : Machine) (addr : Nat) : Word := m.ram m.cr3 (dirIndex addr)

/-- The page-table entry of an address, in the table that its directory entry names. -/
def Machine.pte (m : Machine) (addr : Nat) : Word := m.ram (frameOf (m.pde addr)) (pageTableIndex addr)

/-- The address of the page-table entry in the window. -/
def entryAddr (addr : Nat) : Nat := window (dirIndex addr) + 4 * pageTableIndex addr

theorem entryAddr_ne (addr : Nat) : entryAddr addr ≠ NULL := by
  rw [entryAddr, window, NULL]
  omega

theorem walk_pte (m : Machine) (addr : Nat) :
    walk m.ram m.cr3 addr =
      if present (m.pde addr) && present (m.pte addr) then some (frameOf (m.pte addr)) else none := rfl

theorem getPageEntry_ok (h : Env m) {addr : Nat} (ha : addr < 2 ^ 32) {v : Nat} :
    Returns (getPageEntry addr) m v m' ↔
      v = (if present (m.pde addr) then entryAddr addr else NULL) ∧ m' = m := by
  have hd := dirIndex_lt ha
  simp only [getPageEntry, bind_ok, dirEntry_ok h hd, pure_ok, getPageTable_eq hd.le]
  constructor
  · rintro ⟨w, _, ⟨rfl, rfl⟩, rfl, rfl⟩
    exact ⟨rfl, rfl⟩
  · rintro ⟨rfl, rfl⟩
    exact ⟨_, _, ⟨rfl, rfl⟩, rfl, rfl⟩

theorem loadEntry_ok (h : Env m) {addr : Nat} (ha : addr < 2 ^ 32) (hp : present (m.pde addr) = true) {v : Word} :
    Returns (loadWord (entryAddr addr)) m v m' ↔ v = m.pte addr ∧ m' = m := by
  have hi := pageTableIndex_lt addr
  rw [loadWord_ok, entryAddr, h.walk_window (dirIndex_lt ha) (entry_offset hi), wordIndex_add (window_aligned _) hi]
  rw [Machine.pde] at hp
  simp only [hp, if_true, Option.some.injEq]
  constructor
  · rintro ⟨f, rfl, rfl, rfl⟩
    exact ⟨rfl, rfl⟩
  · rintro ⟨rfl, rfl⟩
    exact ⟨_, rfl, rfl, rfl⟩

theorem storeEntry_ok (h : Env m) {addr : Nat} (ha : addr < 2 ^ 32) (hp : present (m.pde addr) = true) {w : Word}
    {u : Unit} :
    Returns (storeWord (entryAddr addr) w) m u m' ↔
      m' = m.setWord (frameOf (m.pde addr)) (pageTableIndex addr) w := by
  have hi := pageTableIndex_lt addr
  rw [storeWord_ok, entryAddr, h.walk_window (dirIndex_lt ha) (entry_offset hi), wordIndex_add (window_aligned _) hi]
  rw [Machine.pde] at hp ⊢
  simp only [hp, if_true, Option.some.injEq]
  constructor
  · rintro ⟨f, rfl, rfl⟩
    rfl
  · rintro rfl
    exact ⟨_, rfl, rfl⟩

theorem pageFrame_ok (h : Env m) {addr : Nat} (ha : addr < 2 ^ 32) {v : Nat} :
    Returns (pageFrame addr) m v m' ↔
      v = (if present (m.pde addr) then frameOf (m.pte addr) else 0) ∧ m' = m := by
  simp only [pageFrame, bind_ok, getPageEntry_ok h ha]
  cases hp : present (m.pde addr) with
  | false =>
    constructor
    · rintro ⟨v, _, ⟨rfl, rfl⟩, hr⟩
      simpa using hr
    · rintro ⟨rfl, rfl⟩
      exact ⟨_, _, ⟨rfl, rfl⟩, by simp⟩
  | true =>
    constructor
    · rintro ⟨v, _, ⟨rfl, rfl⟩, hr⟩
      rw [if_pos rfl, if_neg (entryAddr_ne addr)] at hr
      obtain ⟨w, t, hl, hr⟩ := (bind_ok _ _ _).mp hr
      obtain ⟨rfl, rfl⟩ := (loadEntry_ok h ha hp).mp hl
      simpa using hr
    · rintro ⟨rfl, rfl⟩
      refine ⟨_, _, ⟨rfl, rfl⟩, ?_⟩
      rw [if_pos rfl, if_neg (entryAddr_ne addr)]
      exact (bind_ok _ _ _).mpr ⟨_, _, (loadEntry_ok h ha hp).mpr ⟨rfl, rfl⟩, by simp⟩

theorem pagePresent_ok (h : Env m) {addr : Nat} (ha : addr < 2 ^ 32) {v : Bool} :
    Returns (pagePresent addr) m v m' ↔ v = (present (m.pde addr) && present (m.pte addr)) ∧ m' = m := by
  simp only [pagePresent, bind_ok, getPageEntry_ok h ha]
  cases hp : present (m.pde addr) with
  | false =>
    constructor
    · rintro ⟨v, _, ⟨rfl, rfl⟩, hr⟩
      simpa using hr
    · rintro ⟨rfl, rfl⟩
      exact ⟨_, _, ⟨rfl, rfl⟩, by simp⟩
  | true =>
    constructor
    · rintro ⟨v, _, ⟨rfl, rfl⟩, hr⟩
      rw [if_pos rfl, if_neg (entryAddr_ne addr)] at hr
      obtain ⟨w, t, hl, hr⟩ := (bind_ok _ _ _).mp hr
      obtain ⟨rfl, rfl⟩ := (loadEntry_ok h ha hp).mp hl
      simpa using hr
    · rintro ⟨rfl, rfl⟩
      refine ⟨_, _, ⟨rfl, rfl⟩, ?_⟩
      rw [if_pos rfl, if_neg (entryAddr_ne addr)]
      exact (bind_ok _ _ _).mpr ⟨_, _, (loadEntry_ok h ha hp).mpr ⟨rfl, rfl⟩, by simp⟩

theorem window_lt {d : Nat} (hd : d < 1024) : window d < 2 ^ 32 := by
  rw [window, PAGE_SIZE]
  omega

theorem dirIndex_window' {d : Nat} (hd : d < 1024) : dirIndex (window d) = 1023 :=
  @dirIndex_window d 0 hd (by decide)

/-- The directory is its own page table for the window. -/
theorem Env.pte_window (h : Env m) {d : Nat} (hd : d < 1024) : m.pte (window d) = m.ram m.cr3 d := by
  have hpt : pageTableIndex (window d) = d := @pageTableIndex_window d 0 hd (by decide)
  rw [Machine.pte, Machine.pde, dirIndex_window' hd, h.self_frame, hpt]

theorem Env.pde_window (h : Env m) {d : Nat} (hd : d < 1024) : present (m.pde (window d)) = true := by
  rw [Machine.pde, dirIndex_window' hd]
  exact h.self

theorem Env.walk_window' (h : Env m) {d : Nat} (hd : d < 1024) :
    walk m.ram m.cr3 (window d) = if present (m.ram m.cr3 d) then some (frameOf (m.ram m.cr3 d)) else none :=
  @Env.walk_window m h d 0 hd (by decide)

end Env

/-! ## Whole pages -/

/-- The words `g` below `n`, and the words `h` from there on. -/
def filled (n : Nat) (g h : Nat → Word) (i : Nat) : Word := if i < n then g i else h i

theorem filled_zero (g h : Nat → Word) : filled 0 g h = h := by
  funext i
  exact if_neg (Nat.not_lt_zero i)

theorem filled_succ (n : Nat) (g h : Nat → Word) : filled (n + 1) g h = Function.update (filled n g h) n (g n) := by
  funext i
  by_cases hi : i = n
  · subst hi
    simp [filled]
  · rw [Function.update_of_ne hi, filled, filled]
    by_cases hlt : i < n
    · rw [if_pos hlt, if_pos (Nat.lt_succ_of_lt hlt)]
    · rw [if_neg hlt, if_neg (by omega)]

theorem filled_lt {n i : Nat} (hi : i < n) (g h : Nat → Word) : filled n g h i = g i := if_pos hi

theorem setFrame_self_eq (m : Machine) (f : Nat) : m.setFrame f (m.ram f) = m := by
  simp [Machine.setFrame]

theorem setFrame_setWord (m : Machine) (f i : Nat) (g : Nat → Word) (w : Word) :
    (m.setFrame f g).setWord f i w = m.setFrame f (Function.update g i w) := by
  simp [Machine.setFrame, Machine.setWord]

/-- The frame is on the way of the translation of an address. -/
def OnPath (m : Machine) (addr f : Nat) : Prop := f = m.cr3 ∨ f = frameOf (m.pde addr)

theorem walk_setFrame {m : Machine} {addr f : Nat} (h : ¬ OnPath m addr f) (g : Nat → Word) :
    walk (m.setFrame f g).ram m.cr3 addr = walk m.ram m.cr3 addr := by
  rw [OnPath, not_or] at h
  refine walk_congr (congrFun (setFrame_of_ne _ _ _ (Ne.symm h.1)) _) (congrFun (setFrame_of_ne _ _ _ ?_) _)
  exact Ne.symm h.2

section Pages

variable {m m' : Machine} {dst src f g : Nat} {u : Unit}

/-- `memcpy` of a page, when the destination's frame is not used to translate the two addresses. -/
theorem copyPage_ok (hd : dst % PAGE_SIZE = 0) (hs : src % PAGE_SIZE = 0) (hf : walk m.ram m.cr3 dst = some f)
    (hg : walk m.ram m.cr3 src = some g) (hne : g ≠ f) (hpd : ¬ OnPath m dst f) (hps : ¬ OnPath m src f) :
    Returns (copyPage dst src) m u m' ↔ m' = m.setFrame f (filled 1024 (m.ram g) (m.ram f)) := by
  have hrun : Returns (copyPage dst src) m () (m.setFrame f (filled 1024 (m.ram g) (m.ram f))) := by
    have h0 : m.setFrame f (filled 0 (m.ram g) (m.ram f)) = m := by rw [filled_zero, setFrame_self_eq]
    rw [copyPage]
    conv => arg 2; rw [← h0]
    refine loop_eq (fun i => m.setFrame f (filled i (m.ram g) (m.ram f))) fun i hi => ?_
    refine (bind_ok _ _ _).mpr ⟨m.ram g i, _, loadWord_ok.mpr ⟨g, ?_, ?_, rfl⟩, storeWord_ok.mpr ⟨f, ?_, ?_⟩⟩
    · rw [setFrame_cr3, walk_add _ _ hs (entry_offset hi), walk_setFrame hps, hg]
    · rw [wordIndex_add hs hi, setFrame_of_ne _ _ _ hne]
    · rw [setFrame_cr3, walk_add _ _ hd (entry_offset hi), walk_setFrame hpd, hf]
    · rw [wordIndex_add hd hi, setFrame_setWord, filled_succ]
  constructor
  · intro h
    exact (h.unique hrun).2
  · rintro rfl
    exact hrun

/-- A page table cleared through its window page. -/
theorem clearTable_ok (hd : dst % PAGE_SIZE = 0) (hf : walk m.ram m.cr3 dst = some f) (hpd : ¬ OnPath m dst f) :
    Returns (loop (fun i => storeWord (dst + 4 * i) 0#32) 1024) m u m' ↔
      m' = m.setFrame f (filled 1024 (fun _ => 0#32) (m.ram f)) := by
  have hrun : Returns (loop (fun i => storeWord (dst + 4 * i) 0#32) 1024) m ()
      (m.setFrame f (filled 1024 (fun _ => 0#32) (m.ram f))) := by
    have h0 : m.setFrame f (filled 0 (fun _ => 0#32) (m.ram f)) = m := by rw [filled_zero, setFrame_self_eq]
    conv => arg 2; rw [← h0]
    refine loop_eq (fun i => m.setFrame f (filled i (fun _ => 0#32) (m.ram f))) fun i hi => ?_
    refine storeWord_ok.mpr ⟨f, ?_, ?_⟩
    · rw [setFrame_cr3, walk_add _ _ hd (entry_offset hi), walk_setFrame hpd, hf]
    · rw [wordIndex_add hd hi, setFrame_setWord, filled_succ]
  constructor
  · intro h
    exact (h.unique hrun).2
  · rintro rfl
    exact hrun

/-- `enable_CoW` through a window page. -/
theorem enableCoW_ok (hd : dst % PAGE_SIZE = 0) (hf : walk m.ram m.cr3 dst = some f) (hpd : ¬ OnPath m dst f) :
    Returns (enableCoW dst) m u m' ↔ m' = m.setFrame f (filled 1024 (fun i => cowPage (m.ram f i)) (m.ram f)) := by
  have hrun : Returns (enableCoW dst) m () (m.setFrame f (filled 1024 (fun i => cowPage (m.ram f i)) (m.ram f))) := by
    have h0 : m.setFrame f (filled 0 (fun i => cowPage (m.ram f i)) (m.ram f)) = m := by
      rw [filled_zero, setFrame_self_eq]
    rw [enableCoW]
    conv => arg 2; rw [← h0]
    refine loop_eq (fun i => m.setFrame f (filled i (fun i => cowPage (m.ram f i)) (m.ram f))) fun i hi => ?_
    have hwalk : walk (m.setFrame f (filled i (fun i => cowPage (m.ram f i)) (m.ram f))).ram m.cr3 (dst + 4 * i) =
        some f := by
      rw [walk_add _ _ hd (entry_offset hi), walk_setFrame hpd, hf]
    refine (bind_ok _ _ _).mpr ⟨m.ram f i, _, loadWord_ok.mpr ⟨f, hwalk, ?_, rfl⟩, storeWord_ok.mpr ⟨f, hwalk, ?_⟩⟩
    · rw [wordIndex_add hd hi, setFrame_self, filled, if_neg (lt_irrefl i)]
    · rw [wordIndex_add hd hi, setFrame_setWord, filled_succ]
  constructor
  · intro h
    exact (h.unique hrun).2
  · rintro rfl
    exact hrun

end Pages

end Raampjes.Mm
