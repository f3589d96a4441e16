import Raampjes.Lib.Memory
import Raampjes.Mm.Books

/-!
# The memories of the tasks

- `userMemory`: the bytes of the user half of a directory; `memoryOf`, `memories`: those of a task, and of all tasks;
- `userMemory_poke`, `Filled.extends`, `Split.extends`, `Replaced.extends`: what stores and page faults do to the memory of
  the running task;
- `Local.memoryOf`: the other tasks keep theirs.
-/

namespace Raampjes.Mm

open Progs Memories Sched

/-- The byte of the frame `f` at the place of the address `a`. -/
def byteIn (ram : Nat → Nat → Word) (f a : Nat) : UInt8 := byteAt (ram f (wordIndex a)) (a % 4)

/-- The bytes of the pages of the user half. -/
def userMemory (ram : Nat → Nat → Word) (D : Nat) : Memory Nat UInt8 := fun a =>
  if a < KERNEL_MEMORY then (walk ram D a).map fun f => byteIn ram f a else none

/-- The user memory of the task in slot `p`. -/
def memoryOf (m : Machine) (p : Nat) : Option (Memory Nat UInt8) := (directoryOf m p).map (userMemory m.ram)

/-- The user memories of all tasks. -/
def memories (m : Machine) : Nat → Option (Memory Nat UInt8) := memoryOf m

section Memory

variable {ram ram' : Nat → Nat → Word} {m m' m1 : Machine} {L L' L1 : Layout} {T : Finset Nat} {D a f q d : Nat} {b : UInt8}

theorem userMemory_some (ha : a < KERNEL_MEMORY) (hw : walk ram D a = some f) :
    userMemory ram D a = some (byteIn ram f a) := by
  rw [userMemory, if_pos ha, hw, Option.map_some]

theorem userMemory_eq_some : userMemory ram D a = some b ↔
    a < KERNEL_MEMORY ∧ ∃ f, walk ram D a = some f ∧ byteIn ram f a = b := by
  rw [userMemory, Option.ite_none_right_eq_some, Option.map_eq_some_iff]

/-- Pages that keep their frames and their contents. -/
theorem extends_of_kept (h : ∀ a f, a < KERNEL_MEMORY → walk ram D a = some f → walk ram' D a = some f ∧ ram' f = ram f) :
    Extends (userMemory ram D) (userMemory ram' D) := by
  intro a b hb
  obtain ⟨ha, f, hw, rfl⟩ := userMemory_eq_some.mp hb
  obtain ⟨hw', hf⟩ := h a f ha hw
  rw [userMemory_some ha hw', byteIn, byteIn, hf]

/-- A user half that names the same pages has the same bytes, when the pages have. -/
theorem userMemory_congr {D' : Nat} (hs : SameNames ram D ram' D')
    (hc : ∀ d i, HasPage ram D d i → ram' (pageOf ram D d i) = ram (pageOf ram D d i)) :
    userMemory ram' D' = userMemory ram D := by
  funext a
  by_cases ha : a < KERNEL_MEMORY
  swap
  · rw [userMemory, userMemory, if_neg ha, if_neg ha]
  obtain ⟨hp, hf, htab⟩ := hs _ (dirIndex_user ha)
  have hwalk : walk ram' D' a = walk ram D a := by
    rw [walk, walk, hp, hf]
    cases hpd : present (ram D (dirIndex a)) with
    | false => rfl
    | true => rw [htab hpd _ (pageTableIndex_lt a)]
  cases hw : walk ram D a with
  | none => rw [userMemory, userMemory, if_pos ha, if_pos ha, hwalk, hw, Option.map_none, Option.map_none]
  | some f =>
    rw [userMemory_some ha hw, userMemory_some ha (hwalk.trans hw), byteIn, byteIn]
    obtain ⟨hpd, hq, hf⟩ := walk_eq_some.mp hw
    have hpage : HasPage ram D (dirIndex a) (pageTableIndex a) := ⟨dirIndex_user ha, pageTableIndex_lt a, hpd, hq⟩
    have hframe : ram' f = ram f := hf ▸ hc _ _ hpage
    rw [hframe]

theorem SameSpace.names (hs : SameSpace ram ram' D) : SameNames ram D ram' D := fun d hd => by
  obtain ⟨hw, htab⟩ := hs d hd
  exact ⟨by rw [hw], by rw [hw], htab⟩

/-! ## The running task -/

/-- Two addresses of a page with the same word and the same byte of it. -/
theorem eq_of_place {a c : Nat} (hp : a / PAGE_SIZE = c / PAGE_SIZE) (hw : wordIndex a = wordIndex c)
    (hb : a % 4 = c % 4) : a = c := by
  rw [wordIndex, wordIndex, PAGE_SIZE] at *
  omega

/-- **A byte that is stored** to a page of the running task. -/
theorem userMemory_poke (h : Sound m L ∅) (ha : a < KERNEL_MEMORY) (hw : walk m.ram m.cr3 a = some f) :
    userMemory (m.setWord f (wordIndex a) (setByte (m.ram f (wordIndex a)) (a % 4) b)).ram m.cr3 =
      overlay (single a b) (userMemory m.ram m.cr3) := by
  obtain ⟨_, _, hsame, _⟩ := h.poke ha hw (wordIndex a) (setByte (m.ram f (wordIndex a)) (a % 4) b)
  have hwalk : ∀ c, c < KERNEL_MEMORY →
      walk (m.setWord f (wordIndex a) (setByte (m.ram f (wordIndex a)) (a % 4) b)).ram m.cr3 c = walk m.ram m.cr3 c :=
    fun c hc => walk_of_samePages hsame hc
  funext c
  by_cases hca : c = a
  · subst hca
    rw [overlay_some (single_self _ _), userMemory_some ha ((hwalk c ha).trans hw), byteIn, setWord_self,
      byteAt_setByte _ _ (Nat.mod_lt _ (by decide))]
  · rw [overlay_none (single_of_ne hca)]
    by_cases hc : c < KERNEL_MEMORY
    swap
    · rw [userMemory, userMemory, if_neg hc, if_neg hc]
    · cases hwc : walk m.ram m.cr3 c with
      | none => rw [userMemory, userMemory, if_pos hc, if_pos hc, hwalk c hc, hwc, Option.map_none, Option.map_none]
      | some g =>
        rw [userMemory_some hc hwc, userMemory_some hc ((hwalk c hc).trans hwc), byteIn, byteIn, setWord_ram]
        congr 1
        by_cases hat : g = f ∧ wordIndex c = wordIndex a
        · obtain ⟨rfl, hword⟩ := hat
          -- the frame is in the address space once, so that only the byte of the word can differ
          obtain ⟨hpc, hgc⟩ := walk_user hc hwc
          obtain ⟨hpa, hga⟩ := walk_user ha hw
          have hpage := h.holds.curSpace.inj rfl _ _ _ _ hpc hpa (hgc.symm.trans hga)
          have hbyte : c % 4 ≠ a % 4 := fun hb => hca (eq_of_place (same_page_iff.mpr hpage) hword hb)
          rw [if_pos ⟨rfl, hword⟩, byteAt_setByte_of_ne _ _ (Nat.mod_lt _ (by decide)) hbyte, hword]
        · rw [if_neg hat]

/-- **A new page** keeps the bytes of the others. -/
theorem Filled.extends {alloc : Kernel Nat} {flags : Word} (hF : Filled alloc m L a flags m' L') (h : Sound m L T)
    (ha : a < KERNEL_MEMORY) (hno : ¬ HasPage m.ram m.cr3 (dirIndex a) (pageTableIndex a)) :
    Extends (userMemory m.ram m.cr3) (userMemory m'.ram m.cr3) := by
  obtain ⟨_, _, _, _, hone⟩ := hF.pages h ha
  refine extends_of_kept fun c g hc hw => ?_
  obtain ⟨hrole, hreach⟩ := h.holds.user_page hc hw
  have hother : ¬ (dirIndex c = dirIndex a ∧ pageTableIndex c = pageTableIndex a) := fun he =>
    hno (he.1 ▸ he.2 ▸ (walk_user hc hw).1)
  obtain ⟨hiff, heq⟩ := (hone _ _).2 hother
  refine ⟨?_, hF.contents h ha hreach hrole⟩
  rw [walk_of_page hc hiff heq]
  exact hw

/-- A page table of one's own names the same pages. -/
theorem Split.extends {alloc : Kernel Nat} (ho : Split alloc m L d m1 L1) (h : Sound m L T) (hd : d < 768)
    (hp : present (m.ram m.cr3 d) = true) : Extends (userMemory m.ram m.cr3) (userMemory m1.ram m.cr3) := by
  refine extends_of_kept fun c g hc hw => ?_
  obtain ⟨hrole, hreach⟩ := h.holds.user_page hc hw
  refine ⟨?_, ho.contents h hd hp hrole hreach⟩
  rw [(ho.entries h hd hp).walk_eq hp hc]
  exact hw

/-- A page of one's own has the bytes of the old one. -/
theorem Replaced.extends {new : Nat} (hR : Replaced m m' L a new) (h : Holds m L)
    (hpage : HasPage m.ram m.cr3 (dirIndex a) (pageTableIndex a)) (hlt : new < 2 ^ 20) :
    Extends (userMemory m.ram m.cr3) (userMemory m'.ram m.cr3) := by
  intro c b hb
  obtain ⟨hc, g, hw, rfl⟩ := userMemory_eq_some.mp hb
  by_cases hat : c / PAGE_SIZE = a / PAGE_SIZE
  · obtain ⟨hd, hi⟩ := same_page_iff.mp hat
    have hold : g = frameOf (m.pte a) := by
      rw [(walk_user hc hw).2, hd, hi]
      rfl
    have hself : walk m'.ram m.cr3 c = some new := by
      rw [walk, hd, hi]
      exact hR.walk_self hpage.2.2.1 hlt
    have hlt : wordIndex c < 1024 := by
      rw [wordIndex, PAGE_SIZE]
      omega
    rw [userMemory_some hc hself, byteIn, byteIn, hR.bytes _ hlt, hold]
  · obtain ⟨hrole, hreach⟩ := h.user_page hc hw
    rw [userMemory_some hc ((hR.pagesKept c hc hat).trans hw), byteIn, byteIn, hR.contents g hrole hreach]

/-! ## The other tasks -/

theorem directoryOf_of (h : Holds m L) {t : TaskStruct} (ht : m.tasks q = some t) : directoryOf m q = some (L.dir q) := by
  rw [directoryOf, ht, Option.bind_some]
  exact (h.task q t ht).walk_dir h h.curDir

theorem memoryOf_of (h : Holds m L) {t : TaskStruct} (ht : m.tasks q = some t) :
    memoryOf m q = some (userMemory m.ram (L.dir q)) := by
  rw [memoryOf, directoryOf_of h ht, Option.map_some]

theorem memoryOf_none (ht : m.tasks q = none) : memoryOf m q = none := by
  rw [memoryOf, directoryOf, ht, Option.bind_none, Option.map_none]

theorem memoryOf_current (h : Holds m L) : memoryOf m m.current = some (userMemory m.ram m.cr3) := by
  rw [memoryOf_of h h.curTask, h.cr3]

/-- **The other tasks keep their memories.** -/
theorem Local.memoryOf (hl : Local m L m' L') (h : Holds m L) (h' : Holds m' L') (hq : q ≠ m.current) :
    memoryOf m' q = memoryOf m q := by
  cases ht : m.tasks q with
  | none =>
    have hnone : m'.tasks q = none := by
      have hsome := hl.same.isSome q
      rw [ht] at hsome
      exact Option.not_isSome_iff_eq_none.mp (by rw [hsome]; simp)
    rw [memoryOf_none ht, memoryOf_none hnone]
  | some t =>
    obtain ⟨t', ht', _⟩ := hl.same.get ht
    rw [memoryOf_of h ht, memoryOf_of h' ht', hl.dir]
    have hO := hl.othersKept h fun _ _ _ hD => hl.isDirectory h h' hD
    have hD : IsDirectory m q (L.dir q) := (isDirectory_iff h).mpr ⟨by rw [ht]; rfl, rfl⟩
    rw [userMemory_congr (hO.space q _ hq hD).names fun d i hp => hO.contents q _ d i hq hD hp]

/-- The memories after a change of the running task. -/
theorem Local.memories (hl : Local m L m' L') (h : Holds m L) (h' : Holds m' L') :
    memories m' = Function.update (memories m) m.current (some (userMemory m'.ram m.cr3)) := by
  funext q
  by_cases hq : q = m.current
  · subst hq
    rw [Function.update_self, Mm.memories, ← hl.same.current, memoryOf_current h', hl.same.cr3]
  · rw [Function.update_of_ne hq]
    exact hl.memoryOf h h' hq

/-- What the running task does to its memory. -/
theorem Local.alters {w : Memory Nat UInt8} (hl : Local m L m' L') (h : Holds m L) (h' : Holds m' L')
    (hw : Extends (overlay w (userMemory m.ram m.cr3)) (userMemory m'.ram m.cr3)) :
    Alters m.current w (Mm.memories m) (Mm.memories m') :=
  ⟨_, _, memoryOf_current h, hw, hl.memories h h'⟩

end Memory

end Raampjes.Mm
